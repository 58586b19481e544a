import OwnLang.Proofs.Token.Tiling

/-!
# What a string literal says

`Quoted.Spells` tells what characters a text between quotes stands for, one spelling after another:
characters that stand for themselves, named escapes, numbers in hexadecimal, and the escapes that
mean nothing. The literal's extent (`Quoted.Body`) and its value (`Quoted.decode`) are found by two
separate readings of the text, and `Quoted.spells_iff` shows that they agree on every text: the
spellings are what both take together. With the walk over the lexemes this gives the tokens of a text
that is one literal (`tokenize_literal_iff`).
-/

namespace OwnLang

namespace Quoted

/-! ## Spellings -/

/-- The hexadecimal digits of either case, by their values. -/
def HexDigit (n : Nat) (c : Char) : Prop :=
  "0123456789abcdef".toList[n]? = some c ∨ "0123456789ABCDEF".toList[n]? = some c

/-- The escapes with a name, and what they stand for. -/
def named : List (Char × Char) :=
  [('n', '\n'), ('t', '\t'), ('r', '\r'), ('0', '\x00'), ('\\', '\\'), ('"', '"')]

/-- No digit stands at the start of a text. -/
def NoDigit (text : List Char) : Prop := ∀ c ∈ text.head?, ∀ n, ¬HexDigit n c

/-- What a text between quotes stands for: `Spells value body`. -/
inductive Spells : List Char → List Char → Prop
  | nil : Spells [] []
  | plain {c : Char} {value body : List Char} (quote : c ≠ '"') (backslash : c ≠ '\\') (feed : c ≠ '\n') :
    Spells value body → Spells (c :: value) (c :: body)
  | named {c d : Char} {value body : List Char} (listed : (d, c) ∈ named) :
    Spells value body → Spells (c :: value) ('\\' :: d :: body)
  /-- Two digits are the number of a character. -/
  | number {c a b : Char} {m n : Nat} {value body : List Char} (high : HexDigit m a) (low : HexDigit n b)
    (number : c.toNat = 16 * m + n) : Spells value body → Spells (c :: value) ('\\' :: 'x' :: a :: b :: body)
  /-- A single digit is a number too, and what comes behind it is not touched. -/
  | short {c a : Char} {m : Nat} {value body : List Char} (digit : HexDigit m a) (number : c.toNat = m)
    (ends : NoDigit body) : Spells value body → Spells (c :: value) ('\\' :: 'x' :: a :: body)
  | bare {value body : List Char} (ends : NoDigit body) :
    Spells value body → Spells ('\\' :: 'x' :: value) ('\\' :: 'x' :: body)
  /-- An escape without a meaning keeps its backslash. -/
  | other {d : Char} {value body : List Char} (unnamed : ∀ c, (d, c) ∉ named) (numeric : d ≠ 'x')
    (feed : d ≠ '\n') : Spells value body → Spells ('\\' :: d :: value) ('\\' :: d :: body)

/-! ## Digits and escapes -/

theorem HexDigit.lt {n : Nat} {c : Char} (h : HexDigit n c) : n < 16 := by
  rcases h with h | h <;> exact (List.getElem?_eq_some_iff.mp h).1

theorem hexDigit?_of_hexDigit {n : Nat} {c : Char} (h : HexDigit n c) : hexDigit? c = some n := by
  have hlower : ∀ p ∈ "0123456789abcdef".toList.zipIdx, hexDigit? p.1 = some p.2 := by decide
  have hupper : ∀ p ∈ "0123456789ABCDEF".toList.zipIdx, hexDigit? p.1 = some p.2 := by decide
  rcases h with h | h
  · exact hlower (c, n) (List.mem_zipIdx_iff_getElem?.mpr h)
  · exact hupper (c, n) (List.mem_zipIdx_iff_getElem?.mpr h)

theorem hexDigit?_eq_some_iff {n : Nat} {c : Char} : hexDigit? c = some n ↔ HexDigit n c := by
  refine ⟨fun h => ?_, hexDigit?_of_hexDigit⟩
  have hall : ∀ k < 128, ∀ n ∈ hexDigit? (Char.ofNat k), "0123456789abcdef".toList[n]? = some (Char.ofNat k) ∨
      "0123456789ABCDEF".toList[n]? = some (Char.ofNat k) := by decide
  have hbound : c.toNat < 128 := by
    simp only [hexDigit?, Char.le_def, UInt32.le_iff_toNat_le, Char.toNat_val] at h
    have hcodes : '0'.toNat = 48 ∧ '9'.toNat = 57 ∧ 'a'.toNat = 97 ∧ 'f'.toNat = 102 ∧ 'A'.toNat = 65 ∧
      'F'.toNat = 70 := by decide
    obtain ⟨h0, h9, ha, hf, hA, hF⟩ := hcodes
    split at h
    · omega
    split at h
    · omega
    split at h
    · omega
    · cases h
  have hcase := hall c.toNat hbound n (by rwa [Char.ofNat_toNat])
  rwa [Char.ofNat_toNat] at hcase

theorem hexDigit?_eq_none_iff {c : Char} : hexDigit? c = none ↔ ∀ n, ¬HexDigit n c := by
  simp [Option.eq_none_iff_forall_ne_some, hexDigit?_eq_some_iff]

theorem noDigit_cons_iff {c : Char} {text : List Char} : NoDigit (c :: text) ↔ hexDigit? c = none := by
  simp [NoDigit, hexDigit?_eq_none_iff]

/-- The characters below U+0100 are those that two digits can number. -/
theorem exists_digits_iff {c : Char} :
    (∃ a b m n, HexDigit m a ∧ HexDigit n b ∧ c.toNat = 16 * m + n) ↔ c.toNat < 256 := by
  constructor
  · rintro ⟨a, b, m, n, ha, hb, hc⟩
    have := ha.lt
    have := hb.lt
    omega
  · intro h
    have hdigit : ∀ n < 16, ∃ a, HexDigit n a := fun n hn => ⟨_, .inl (List.getElem?_eq_getElem (h := hn))⟩
    obtain ⟨a, ha⟩ := hdigit (c.toNat / 16) (by omega)
    obtain ⟨b, hb⟩ := hdigit (c.toNat % 16) (by omega)
    exact ⟨a, b, _, _, ha, hb, by omega⟩

/-- A digit stands for itself outside of an escape. -/
theorem HexDigit.plain {n : Nat} {c : Char} (h : HexDigit n c) : c ≠ '"' ∧ c ≠ '\\' ∧ c ≠ '\n' := by
  have hread := hexDigit?_of_hexDigit h
  refine ⟨?_, ?_, ?_⟩ <;>
  · rintro rfl
    cases hread

theorem escape_of_listed {c d : Char} (h : (d, c) ∈ named) : escape d = [c] ∧ d ≠ 'x' ∧ d ≠ '\n' := by
  have hall : ∀ p ∈ named, escape p.1 = [p.2] ∧ p.1 ≠ 'x' ∧ p.1 ≠ '\n' := by decide
  exact hall _ h

theorem escape_of_unnamed {d : Char} (h : ∀ c, (d, c) ∉ named) : escape d = ['\\', d] := by
  simp only [named, List.mem_cons, Prod.mk.injEq, List.not_mem_nil, or_false, not_or] at h
  rw [escape.eq_def]
  split <;> first | rfl | simp at h

/-! ## Reading escapes -/

theorem decode_escape {c : Char} (h : c ≠ 'x') (rest : List Char) :
    decode ('\\' :: c :: rest) = escape c ++ decode rest := by
  rw [decode.eq_def]
  simp [h]

theorem decode_short {a : Char} {m : Nat} {rest : List Char} (ha : hexDigit? a = some m) (h : NoDigit rest) :
    decode ('\\' :: 'x' :: a :: rest) = Char.ofNat m :: decode rest := by
  cases rest with
  | nil => simp [decode, ha]
  | cons b rest => rw [decode, ha, noDigit_cons_iff.mp h]

theorem decode_bare {rest : List Char} (h : NoDigit rest) :
    decode ('\\' :: 'x' :: rest) = '\\' :: 'x' :: decode rest := by
  match rest with
  | [] => rfl
  | [a] =>
    rw [decode, noDigit_cons_iff.mp h]
    simp [decode]
  | a :: b :: rest => rw [decode, noDigit_cons_iff.mp h]

/-! ## The two readings agree -/

namespace Spells

theorem body {value text : List Char} (h : Spells value text) : Body text := by
  induction h with
  | nil => exact .nil
  | plain quote backslash feed _ ih => exact .plain quote backslash feed ih
  | named listed _ ih => exact .escape (escape_of_listed listed).2.2 ih
  | number high low _ _ ih =>
    obtain ⟨hquote, hbackslash, hfeed⟩ := high.plain
    obtain ⟨hquote', hbackslash', hfeed'⟩ := low.plain
    exact .escape (by decide) (.plain hquote hbackslash hfeed (.plain hquote' hbackslash' hfeed' ih))
  | short digit _ _ _ ih =>
    obtain ⟨hquote, hbackslash, hfeed⟩ := digit.plain
    exact .escape (by decide) (.plain hquote hbackslash hfeed ih)
  | bare _ _ ih => exact .escape (by decide) ih
  | other _ _ feed _ ih => exact .escape feed ih

theorem decode_eq {value text : List Char} (h : Spells value text) : decode text = value := by
  induction h with
  | nil => rfl
  | plain _ backslash _ _ ih => rw [decode_plain backslash, ih]
  | named listed _ ih =>
    obtain ⟨hvalue, hnumeric, -⟩ := escape_of_listed listed
    rw [decode_escape hnumeric, hvalue, ih, List.singleton_append]
  | @number c a b m n _ _ high low number _ ih =>
    rw [decode_number (hexDigit?_of_hexDigit high) (hexDigit?_of_hexDigit low), ih, ← number, Char.ofNat_toNat]
  | short digit number ends _ ih =>
    rw [decode_short (hexDigit?_of_hexDigit digit) ends, ih, ← number, Char.ofNat_toNat]
  | bare ends _ ih => rw [decode_bare ends, ih]
  | other unnamed numeric _ _ ih =>
    rw [decode_escape numeric, escape_of_unnamed unnamed, ih, List.cons_append, List.singleton_append]

end Spells

theorem toNat_ofNat_of_lt {n : Nat} (h : n < 256) : (Char.ofNat n).toNat = n := by
  rw [Char.toNat_ofNat, if_pos (.inl (h.trans (by decide)))]

theorem Body.tail {c : Char} {rest : List Char} (h : Body (c :: rest)) (hc : c ≠ '\\') : Body rest := by
  cases h with
  | plain _ _ _ hrest => exact hrest
  | escape => exact absurd rfl hc

/-- Whatever stands between the quotes of a literal spells something. -/
theorem Body.spells {text : List Char} (h : Body text) : ∃ value, Spells value text := by
  induction hlength : text.length using Nat.strong_induction_on generalizing text with
  | _ length ih =>
  subst hlength
  cases h with
  | nil => exact ⟨_, .nil⟩
  | @plain c rest quote backslash feed hrest =>
    obtain ⟨value, hvalue⟩ := ih rest.length (by simp) hrest rfl
    exact ⟨_, .plain quote backslash feed hvalue⟩
  | @escape d rest feed hrest =>
    obtain ⟨value, hvalue⟩ := ih rest.length (by simp) hrest rfl
    by_cases hlisted : ∃ c, (d, c) ∈ named
    · obtain ⟨c, hc⟩ := hlisted
      exact ⟨_, .named hc hvalue⟩
    by_cases hnumeric : d = 'x'
    · subst hnumeric
      by_cases hnone : NoDigit rest
      · exact ⟨_, .bare hnone hvalue⟩
      -- a digit is no escape, so that what follows it is the text of a literal again
      match rest, hrest, hnone with
      | [], _, hnone => exact absurd (by simp [NoDigit]) hnone
      | a :: rest, hrest, hnone =>
        rw [noDigit_cons_iff] at hnone
        obtain ⟨m, hm⟩ := Option.ne_none_iff_exists'.mp hnone
        have hdigit := hexDigit?_eq_some_iff.mp hm
        have hbehind : Body rest := hrest.tail hdigit.plain.2.1
        by_cases hsecond : NoDigit rest
        · obtain ⟨value, hvalue⟩ := ih rest.length (by simp; omega) hbehind rfl
          exact ⟨_, .short hdigit (toNat_ofNat_of_lt (by have := hdigit.lt; omega)) hsecond hvalue⟩
        match rest, hbehind, hsecond with
        | [], _, hsecond => exact absurd (by simp [NoDigit]) hsecond
        | b :: rest, hbehind, hsecond =>
          rw [noDigit_cons_iff] at hsecond
          obtain ⟨n, hn⟩ := Option.ne_none_iff_exists'.mp hsecond
          have hlow := hexDigit?_eq_some_iff.mp hn
          obtain ⟨value, hvalue⟩ := ih rest.length (by simp; omega) (hbehind.tail hlow.plain.2.1) rfl
          have hbound : 16 * m + n < 256 := by
            have := hdigit.lt
            have := hlow.lt
            omega
          exact ⟨_, .number hdigit hlow (toNat_ofNat_of_lt hbound) hvalue⟩
    · exact ⟨_, .other (not_exists.mp hlisted) hnumeric feed hvalue⟩

/-- The extent of a literal and its value are both read as the spellings say. -/
theorem spells_iff {value text : List Char} : Spells value text ↔ Body text ∧ decode text = value := by
  refine ⟨fun h => ⟨h.body, h.decode_eq⟩, ?_⟩
  rintro ⟨hbody, rfl⟩
  obtain ⟨value, hvalue⟩ := hbody.spells
  rwa [hvalue.decode_eq]

end Quoted

/-! ## A text that is one literal -/

variable {file : String}

/-- A token that covers a whole text stands for all of it. -/
theorem Tiles.covers_whole {text covered : List Char} {tokens : List Token} (h : Tiles file text covered tokens)
    {t : Token} (ht : t ∈ tokens) (hstart : t.span.start = 0) (hstop : t.span.stop = byteWidth text) :
    t.Covers file [] text [] := by
  obtain ⟨before, piece, after, rfl, hcovers, -⟩ := h.covers t ht
  simp only [hcovers.span, byteWidth_append] at hstart hstop
  have hbefore : before = [] := by
    by_contra hne
    have hpos := byteWidth_pos hne
    omega
  have hafter : after = [] := by
    by_contra hne
    have hpos := byteWidth_pos hne
    omega
  subst hbefore hafter
  simpa using hcovers

/-- A text in quotes is one literal, from quote to quote and with nothing behind it, of just the values
that its spellings give it. -/
theorem tokenize_literal_iff (file : String) (value body : List Char) :
    tokenize (String.ofList ('"' :: body ++ ['"'])) file =
        .ok [⟨.string, String.ofList value, ⟨file, 0, byteWidth ('"' :: body ++ ['"'])⟩⟩,
          .final file ('"' :: body ++ ['"'])] ↔
      Quoted.Spells value body := by
  rw [Quoted.spells_iff]
  have hquotes : (String.ofList ('"' :: body ++ ['"'])).toList = '"' :: body ++ ['"'] := String.toList_ofList
  constructor
  · intro htokens
    obtain ⟨found, hfound, htiles⟩ := (tokenize_tiles _ file).1 _ htokens
    rw [hquotes] at htiles
    rw [← List.singleton_append] at hfound
    obtain ⟨rfl, -⟩ := List.append_inj' hfound rfl
    have hcovers := htiles.covers_whole (List.mem_singleton_self _) rfl rfl
    obtain ⟨inner, hinner, htext, hvalue⟩ := hcovers.literal rfl
    have hsame : body = inner := by simpa using htext
    subst hsame
    exact ⟨hinner, (String.ofList_injective hvalue).symm⟩
  · rintro ⟨hbody, rfl⟩
    have hreads : Lexeme.Reads _ _ [] := .literal hbody
    have hscans : Scans file ('"' :: body ++ ['"']) _ _ _ := .token (by simpa using .start) hreads
    rw [tokenize_of_scans (by rwa [hquotes]), tokensFrom_nil]
    rfl

/-- Numbers of one digit and of two, a quote that ends nothing, and two escapes without a meaning. -/
example : Quoted.decode "\\x4\\x411\\\"\\xg\\q".toList = "\x04A1\"\\xg\\q".toList := by decide

end OwnLang
