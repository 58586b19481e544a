import Mathlib
import OwnLang.Token.Lexer

/-!
# What a lexeme is

`Lexeme.Reads` says without an order of attempts what a text starts with: a run of blanks, a
comment, a string literal, or else the longest spelling of the language. `Lexeme.reads_iff_first?`
shows that `Lexeme.first?`, which tries one form after another, finds exactly that. The step from
the order of `TokenKind.punctuation` to the longest spelling is `Lexeme.punctuation?_eq_some_iff`.
-/

namespace OwnLang

namespace Quoted

/-- What may stand between the quotes of a literal: characters other than a quote, a backslash and
a line feed, and backslashes that take the next character of the line with them. -/
inductive Body : List Char → Prop
  | nil : Body []
  | plain {c : Char} {body : List Char} (quote : c ≠ '"') (backslash : c ≠ '\\') (feed : c ≠ '\n') :
    Body body → Body (c :: body)
  | escape {c : Char} {body : List Char} (feed : c ≠ '\n') : Body body → Body ('\\' :: c :: body)

/-- The first quote that no backslash takes with it ends a literal. -/
theorem body?_eq_some_iff {text body : List Char} :
    body? text = some body ↔ Body body ∧ ∃ rest, text = body ++ '"' :: rest := by
  constructor
  · intro h
    fun_induction body? text generalizing body with
    | case1 => cases h
    | case2 rest =>
      cases h
      exact ⟨.nil, rest, rfl⟩
    | case3 => cases h
    | case4 c rest hfeed ih =>
      obtain ⟨inner, hinner, rfl⟩ := Option.map_eq_some_iff.mp h
      obtain ⟨hbody, behind, rfl⟩ := ih hinner
      exact ⟨.escape hfeed hbody, behind, rfl⟩
    | case5 => cases h
    | case6 c rest hquote _ hplain ih =>
      obtain ⟨inner, hinner, rfl⟩ := Option.map_eq_some_iff.mp h
      obtain ⟨hbody, behind, rfl⟩ := ih hinner
      exact ⟨.plain (fun hc => hquote hc) (fun hc => hplain (.inr hc)) (fun hc => hplain (.inl hc)) hbody,
        behind, rfl⟩
  · rintro ⟨hbody, rest, rfl⟩
    induction hbody with
    | nil => rfl
    | @plain c body quote backslash feed _ ih =>
      rw [List.cons_append, body?.eq_4 _ _ quote (fun _ _ h => absurd h backslash),
        if_neg (by simp [feed, backslash]), ih]
      rfl
    | @escape c body feed _ ih => simp [body?, feed, ih]

end Quoted

namespace Lexeme

/-! ## Spellings, gaps and comments -/

/-- The spellings of the tokens that stand for themselves: words, numbers and punctuation. -/
inductive Spelling : TokenKind → List Char → Prop
  | word {c : Char} {more : List Char} (starts : startsWord c = true)
      (continues : ∀ x ∈ more, continuesWord x = true) :
    Spelling (.ofWord (String.ofList (c :: more))) (c :: more)
  | number {c : Char} {more : List Char} (starts : c.isDigit = true)
      (continues : ∀ x ∈ more, x.isDigit = true) : Spelling .number (c :: more)
  | punctuation {spelling : String} {kind : TokenKind} (listed : (spelling, kind) ∈ TokenKind.punctuation) :
    Spelling kind spelling.toList

/-- A comment in front of `rest`: one up to the end of the line, or one that its first `*/` closes. -/
inductive Comment : List Char → List Char → Prop
  | line {body rest : List Char} (online : ∀ c ∈ body, c ≠ '\n') (ends : ∀ c ∈ rest.head?, c = '\n') :
    Comment ('/' :: '/' :: body) rest
  | block {body rest : List Char} (first : ¬['*', '/'] <:+: body ++ ['*']) :
    Comment ('/' :: '*' :: body ++ ['*', '/']) rest

/-- No comment is at the start of a text. -/
def NoComment (text : List Char) : Prop := ∀ piece rest, text = piece ++ rest → ¬Comment piece rest

/-- A spelling is the longest one at the start of a text. -/
def Longest (piece text : List Char) : Prop :=
  ∀ kind other, Spelling kind other → other <+: text → other.length ≤ piece.length

/-- `piece` is the lexeme at the start of the text `piece ++ rest`. -/
inductive Reads : Lexeme → List Char → List Char → Prop
  | blanks {c : Char} {more rest : List Char} (first : isBlank c = true)
      (continues : ∀ x ∈ more, isBlank x = true) (ends : ∀ x ∈ rest.head?, isBlank x = false) :
    Reads .gap (c :: more) rest
  | comment {piece rest : List Char} (is : Comment piece rest) : Reads .gap piece rest
  | literal {body rest : List Char} (is : Quoted.Body body) :
    Reads (.token .string (String.ofList (Quoted.decode body))) ('"' :: body ++ ['"']) rest
  | spelling {kind : TokenKind} {piece rest : List Char} (is : Spelling kind piece)
      (longest : Longest piece (piece ++ rest)) (code : NoComment (piece ++ rest)) :
    Reads (.token kind (String.ofList piece)) piece rest

/-- No lexeme is at the start of a text. -/
def Unreadable (text : List Char) : Prop := ∀ lexeme piece rest, text = piece ++ rest → ¬Reads lexeme piece rest

/-! ## Classes of characters -/

/-- The characters that punctuation starts with start nothing else. -/
structure Symbolic (c : Char) : Prop where
  word : startsWord c = false
  digit : c.isDigit = false
  blank : isBlank c = false
  quote : c ≠ '"'

theorem symbolic_punctuation {spelling : String} {kind : TokenKind}
    (h : (spelling, kind) ∈ TokenKind.punctuation) :
    ∃ c more, spelling.toList = c :: more ∧ Symbolic c := by
  have hall : ∀ p ∈ TokenKind.punctuation, ∃ c ∈ p.1.toList.head?, startsWord c = false ∧
      c.isDigit = false ∧ isBlank c = false ∧ c ≠ '"' := by
    simp only [TokenKind.punctuation, List.forall_mem_cons]
    simp
    decide
  obtain ⟨c, hc, hword, hdigit, hblank, hquote⟩ := hall _ h
  obtain ⟨more, hmore⟩ := List.head?_eq_some_iff.mp hc
  exact ⟨c, more, hmore, hword, hdigit, hblank, hquote⟩

theorem symbolic_slash : Symbolic '/' := by
  constructor <;> decide

theorem isDigit_iff {c : Char} : c.isDigit = true ↔ 48 ≤ c.toNat ∧ c.toNat ≤ 57 := by
  simp [Char.isDigit, UInt32.le_iff_toNat_le, ← Char.toNat_val]

theorem startsWord_iff {c : Char} : startsWord c = true ↔
    (65 ≤ c.toNat ∧ c.toNat ≤ 90) ∨ (97 ≤ c.toNat ∧ c.toNat ≤ 122) ∨ c.toNat = 95 := by
  have hunderscore : c = '_' ↔ c.toNat = 95 := by
    rw [← Char.toNat_inj]
    rfl
  simp [startsWord, Char.isAlpha, Char.isUpper, Char.isLower, UInt32.le_iff_toNat_le,
    ← Char.toNat_val, or_assoc, hunderscore]

theorem startsWord_of_isDigit {c : Char} (h : c.isDigit = true) : startsWord c = false := by
  rw [isDigit_iff] at h
  rw [← Bool.not_eq_true, startsWord_iff]
  omega

theorem startsWord_of_isBlank {c : Char} (h : isBlank c = true) : startsWord c = false := by
  simp only [isBlank] at h
  simp at h
  rw [← Bool.not_eq_true, startsWord_iff]
  omega

theorem isDigit_of_isBlank {c : Char} (h : isBlank c = true) : c.isDigit = false := by
  simp only [isBlank] at h
  simp at h
  rw [← Bool.not_eq_true, isDigit_iff]
  omega

/-! ## Runs of a class -/

section

variable {p : Char → Bool} {run rest : List Char}

theorem takeWhile_run (hrun : ∀ x ∈ run, p x = true) (hrest : ∀ x ∈ rest.head?, p x = false) :
    (run ++ rest).takeWhile p = run := by
  rw [List.takeWhile_append_of_pos hrun]
  cases rest with
  | nil => simp
  | cons x rest => simp [hrest x rfl]

/-- A text is a run of the characters of a class and what is behind it. -/
theorem exists_run (p : Char → Bool) (text : List Char) :
    ∃ run rest, text = run ++ rest ∧ (∀ x ∈ run, p x = true) ∧ ∀ x ∈ rest.head?, p x = false := by
  refine ⟨text.takeWhile p, text.dropWhile p, List.takeWhile_append_dropWhile.symm,
    fun x hx => List.mem_takeWhile_imp hx, fun x hx => ?_⟩
  obtain ⟨more, hmore⟩ := List.head?_eq_some_iff.mp hx
  have hhead := List.head?_dropWhile_not p text
  rw [hmore] at hhead
  simpa using hhead

/-- A run of a class is the longest beginning of the text in the class. -/
theorem length_le_run {piece : List Char} (hrest : ∀ x ∈ rest.head?, p x = false)
    (hpiece : ∀ x ∈ piece, p x = true) (h : piece <+: run ++ rest) : piece.length ≤ run.length := by
  by_contra hlonger
  obtain ⟨after, hafter⟩ := h
  obtain ⟨behind, rfl, hbehind⟩ := (List.append_eq_append_iff.mp hafter.symm).resolve_right fun ⟨l, hl, _⟩ =>
    hlonger (by simp [hl])
  cases behind with
  | nil => simp at hlonger
  | cons x behind =>
    have hx : p x = false := hrest x (by simp [hbehind])
    exact absurd (hpiece x (by simp)) (by simp [hx])

end

/-! ## Comments -/

theorem commentEnd?_eq_some_iff {text : List Char} {n : Nat} :
    commentEnd? text = some n ↔
      ∃ body rest, text = body ++ ['*', '/'] ++ rest ∧ n = body.length + 2 ∧ ¬['*', '/'] <:+: body ++ ['*'] := by
  fun_induction commentEnd? text generalizing n with
  | case1 rest =>
    constructor
    · intro h
      cases h
      exact ⟨[], rest, rfl, rfl, by decide⟩
    · rintro ⟨body, behind, htext, rfl, hfirst⟩
      cases body with
      | nil => rfl
      | cons x body =>
        -- a longer comment would hold the `*/` that the text starts with
        cases body with
        | nil => simp at htext
        | cons y body =>
          simp only [List.cons_append, List.cons.injEq] at htext
          obtain ⟨rfl, rfl, -⟩ := htext
          exact absurd ⟨[], body ++ ['*'], by simp⟩ hfirst
  | case2 c rest hclose ih =>
    rw [Option.map_eq_some_iff]
    constructor
    · rintro ⟨m, hm, rfl⟩
      obtain ⟨body, behind, rfl, rfl, hfirst⟩ := ih.mp hm
      refine ⟨c :: body, behind, by simp, by simp, ?_⟩
      rintro ⟨before, after, hsplit⟩
      cases before with
      | nil =>
        simp only [List.nil_append, List.cons_append, List.cons.injEq] at hsplit
        obtain ⟨rfl, hbody⟩ := hsplit
        cases body with
        | nil => simp at hbody
        | cons y body =>
          simp only [List.cons_append, List.cons.injEq] at hbody
          obtain ⟨rfl, -⟩ := hbody
          exact hclose _ rfl rfl
      | cons y before =>
        simp only [List.cons_append, List.cons.injEq] at hsplit
        exact hfirst ⟨before, after, hsplit.2⟩
    · rintro ⟨body, behind, htext, rfl, hfirst⟩
      cases body with
      | nil =>
        simp only [List.nil_append, List.cons_append, List.cons.injEq] at htext
        obtain ⟨rfl, rfl⟩ := htext
        exact absurd rfl (hclose _ rfl)
      | cons x body =>
        simp only [List.cons_append, List.cons.injEq] at htext
        obtain ⟨rfl, rfl⟩ := htext
        refine ⟨body.length + 2, ih.mpr ⟨body, behind, by simp, rfl, ?_⟩, rfl⟩
        rintro ⟨before, after, hsplit⟩
        exact hfirst ⟨c :: before, after, by simp [← hsplit]⟩
  | case3 => simp

theorem comment_of_comment? {c : Char} {rest : List Char} {lexeme : Lexeme} {n : Nat}
    (h : comment? c rest = some (lexeme, n)) :
    lexeme = .gap ∧ n ≤ rest.length ∧ Comment (c :: rest.take n) (rest.drop n) := by
  unfold comment? at h
  split at h
  · rename_i line
    cases h
    obtain ⟨body, behind, rfl, hbody, hbehind⟩ := exists_run (· != '\n') line
    rw [takeWhile_run hbody hbehind]
    refine ⟨rfl, by simp, ?_⟩
    simpa using Comment.line (by simpa using hbody) (by simpa using hbehind)
  · rename_i text
    obtain ⟨m, hm, hsame⟩ := Option.map_eq_some_iff.mp h
    cases hsame
    obtain ⟨body, behind, rfl, rfl, hfirst⟩ := commentEnd?_eq_some_iff.mp hm
    refine ⟨rfl, by simp, ?_⟩
    have hlength : body.length + 2 = (body ++ ['*', '/']).length := by simp
    rw [List.take_succ_cons, List.drop_succ_cons, hlength, List.take_left, List.drop_left]
    exact .block hfirst
  · cases h

theorem comment?_of_comment {piece rest : List Char} (h : Comment piece rest) :
    ∃ c more, piece = c :: more ∧ comment? c (more ++ rest) = some (.gap, more.length) := by
  cases h with
  | @line body rest online ends =>
    refine ⟨'/', '/' :: body, rfl, ?_⟩
    simp only [comment?, List.cons_append, List.length_cons]
    rw [takeWhile_run (by simpa using online) (by simpa using ends)]
  | @block body rest first =>
    refine ⟨'/', '*' :: body ++ ['*', '/'], rfl, ?_⟩
    have hend := commentEnd?_eq_some_iff.mpr ⟨body, rest, rfl, rfl, first⟩
    simp only [comment?, List.cons_append, hend]
    simp

theorem noComment_iff {c : Char} {rest : List Char} : NoComment (c :: rest) ↔ comment? c rest = none := by
  constructor
  · intro h
    by_contra hsome
    obtain ⟨⟨lexeme, n⟩, hfound⟩ := Option.ne_none_iff_exists'.mp hsome
    obtain ⟨-, -, hcomment⟩ := comment_of_comment? hfound
    exact h _ _ (by simp) hcomment
  · intro hnone piece behind htext hcomment
    obtain ⟨c', more, rfl, hfound⟩ := comment?_of_comment hcomment
    simp only [List.cons_append, List.cons.injEq] at htext
    obtain ⟨rfl, rfl⟩ := htext
    rw [hnone] at hfound
    cases hfound

theorem noComment_of_ne {c : Char} {rest : List Char} (h : c ≠ '/') : NoComment (c :: rest) := by
  rintro piece behind htext (⟨-, -⟩ | -) <;> simp_all

/-! ## Longest spellings -/

/-- A spelling is a word, a number or punctuation by its first character. -/
theorem Spelling.cases_head {kind : TokenKind} {piece : List Char} (h : Spelling kind piece) :
    ∃ c more, piece = c :: more ∧
      ((startsWord c = true ∧ ∀ x ∈ more, continuesWord x = true) ∨
        (c.isDigit = true ∧ ∀ x ∈ more, x.isDigit = true) ∨ Symbolic c) := by
  cases h with
  | word starts continues => exact ⟨_, _, rfl, .inl ⟨starts, continues⟩⟩
  | number starts continues => exact ⟨_, _, rfl, .inr (.inl ⟨starts, continues⟩)⟩
  | punctuation listed =>
    obtain ⟨c, more, hpiece, hc⟩ := symbolic_punctuation listed
    exact ⟨c, more, hpiece, .inr (.inr hc)⟩

theorem longest_word {c : Char} {more rest : List Char} (starts : startsWord c = true)
    (ends : ∀ x ∈ rest.head?, continuesWord x = false) : Longest (c :: more) (c :: more ++ rest) := by
  intro kind other hother hprefix
  obtain ⟨c', more', rfl, hclass⟩ := hother.cases_head
  obtain ⟨rfl, hbehind⟩ := List.cons_prefix_cons.mp hprefix
  rcases hclass with ⟨-, hmore⟩ | ⟨hdigit, -⟩ | hc
  · simpa using length_le_run ends hmore hbehind
  · simp [startsWord_of_isDigit hdigit] at starts
  · simp [hc.word] at starts

theorem longest_number {c : Char} {more rest : List Char} (starts : c.isDigit = true)
    (ends : ∀ x ∈ rest.head?, x.isDigit = false) : Longest (c :: more) (c :: more ++ rest) := by
  intro kind other hother hprefix
  obtain ⟨c', more', rfl, hclass⟩ := hother.cases_head
  obtain ⟨rfl, hbehind⟩ := List.cons_prefix_cons.mp hprefix
  rcases hclass with ⟨hword, -⟩ | ⟨-, hmore⟩ | hc
  · simp [startsWord_of_isDigit starts] at hword
  · simpa using length_le_run ends hmore hbehind
  · simp [hc.digit] at starts

/-- No spelling of punctuation begins a later one, or is listed twice. -/
theorem punctuation_ordered :
    TokenKind.punctuation.Pairwise fun p q => ¬p.1.toList <+: q.1.toList := by
  decide

/-- The first spelling that fits is the longest one. -/
theorem punctuation?_eq_some_iff {text : List Char} {spelling : String} {kind : TokenKind} :
    punctuation? text = some (spelling, kind) ↔
      (spelling, kind) ∈ TokenKind.punctuation ∧ spelling.toList <+: text ∧
        ∀ p ∈ TokenKind.punctuation, p.1.toList <+: text → p.1.toList.length ≤ spelling.toList.length := by
  constructor
  · intro h
    obtain ⟨hfits, before, after, hlist, hbefore⟩ := List.find?_eq_some_iff_append.mp h
    have hfits : spelling.toList <+: text := List.isPrefixOf_iff_prefix.mp hfits
    refine ⟨List.mem_of_find?_eq_some h, hfits, fun p hp hprefix => ?_⟩
    rw [hlist] at hp
    rcases List.mem_append.mp hp with hp | hp
    · have hnot := hbefore p hp
      simp [List.isPrefixOf_iff_prefix.mpr hprefix] at hnot
    rcases List.mem_cons.mp hp with rfl | hp
    · exact le_rfl
    · have hordered := punctuation_ordered
      rw [hlist] at hordered
      have hnot := List.rel_of_pairwise_cons (List.pairwise_append.mp hordered).2.1 hp
      exact le_of_not_ge fun hshorter => hnot (List.prefix_of_prefix_length_le hfits hprefix hshorter)
  · rintro ⟨hlisted, hfits, hlongest⟩
    obtain ⟨before, after, hlist⟩ := List.append_of_mem hlisted
    refine List.find?_eq_some_iff_append.mpr
      ⟨List.isPrefixOf_iff_prefix.mpr hfits, before, after, hlist, fun p hp => ?_⟩
    have hordered := punctuation_ordered
    rw [hlist] at hordered
    have hnot := (List.pairwise_append.mp hordered).2.2 p hp _ List.mem_cons_self
    simp only [Bool.not_eq_true', Bool.eq_false_iff, ne_eq, List.isPrefixOf_iff_prefix]
    intro hprefix
    have hshorter := hlongest p (by simp [hlist, hp]) hprefix
    exact hnot (List.prefix_of_prefix_length_le hprefix hfits hshorter)

theorem longest_punctuation {c : Char} {rest : List Char} {spelling : String} {kind : TokenKind}
    (hc : Symbolic c) (h : punctuation? (c :: rest) = some (spelling, kind)) :
    Longest spelling.toList (c :: rest) := by
  intro kind' other hother hprefix
  cases hother with
  | punctuation listed => exact (punctuation?_eq_some_iff.mp h).2.2 _ listed hprefix
  | word starts continues =>
    obtain ⟨rfl, -⟩ := List.cons_prefix_cons.mp hprefix
    simp [hc.word] at starts
  | number starts continues =>
    obtain ⟨rfl, -⟩ := List.cons_prefix_cons.mp hprefix
    simp [hc.digit] at starts

/-! ## One lexeme -/

/-- What `first?` finds is the lexeme at the start of the text. -/
theorem reads_of_first? {c : Char} {rest : List Char} {lexeme : Lexeme} {n : Nat}
    (h : first? c rest = some (lexeme, n)) :
    n ≤ rest.length ∧ Reads lexeme (c :: rest.take n) (rest.drop n) := by
  unfold first? at h
  split at h
  · rename_i hword
    obtain ⟨more, behind, rfl, hmore, hbehind⟩ := exists_run continuesWord rest
    simp only [takeWhile_run hmore hbehind] at h
    cases h
    have hslash : c ≠ '/' := by
      rintro rfl
      simp [symbolic_slash.word] at hword
    simpa using Reads.spelling (.word hword hmore) (longest_word hword hbehind) (noComment_of_ne hslash)
  split at h
  · rename_i hdigit
    obtain ⟨more, behind, rfl, hmore, hbehind⟩ := exists_run Char.isDigit rest
    simp only [takeWhile_run hmore hbehind] at h
    cases h
    have hslash : c ≠ '/' := by
      rintro rfl
      simp [symbolic_slash.digit] at hdigit
    simpa using Reads.spelling (.number hdigit hmore) (longest_number hdigit hbehind) (noComment_of_ne hslash)
  split at h
  · rename_i hblank
    obtain ⟨more, behind, rfl, hmore, hbehind⟩ := exists_run isBlank rest
    simp only [takeWhile_run hmore hbehind] at h
    cases h
    simpa using Reads.blanks hblank hmore hbehind
  split at h
  · rename_i hquote
    obtain ⟨body, hfound, hsame⟩ := Option.map_eq_some_iff.mp h
    cases hsame
    obtain ⟨hbody, behind, rfl⟩ := Quoted.body?_eq_some_iff.mp hfound
    subst hquote
    have hlength : body.length + 1 = (body ++ ['"']).length := by simp
    rw [List.append_cons, hlength, List.take_left, List.drop_left]
    exact ⟨by simp, .literal hbody⟩
  rcases Option.or_eq_some_iff.mp h with hcomment | ⟨hnone, hpunctuation⟩
  · obtain ⟨rfl, hlength, hcomment⟩ := comment_of_comment? hcomment
    exact ⟨hlength, .comment hcomment⟩
  · obtain ⟨⟨spelling, kind⟩, hfound, hsame⟩ := Option.map_eq_some_iff.mp hpunctuation
    cases hsame
    obtain ⟨hlisted, ⟨behind, hbehind⟩, -⟩ := punctuation?_eq_some_iff.mp hfound
    obtain ⟨c', more, hspelling, hc⟩ := symbolic_punctuation hlisted
    have hlongest : punctuation? (c' :: (more ++ behind)) = some (spelling, kind) →
        Longest spelling.toList (c' :: (more ++ behind)) := longest_punctuation hc
    rw [hspelling, List.cons_append, List.cons.injEq] at hbehind
    obtain ⟨rfl, rfl⟩ := hbehind
    have hlength : spelling.length - 1 = more.length := by
      rw [← String.length_toList, hspelling]
      simp
    have hreads := @Reads.spelling kind spelling.toList behind (.punctuation hlisted)
    rw [hlength]
    rw [hspelling] at hreads hlongest
    have hname : String.ofList (c' :: more) = spelling := by rw [← hspelling, String.ofList_toList]
    rw [hname] at hreads
    simpa using hreads (hlongest hfound) (noComment_iff.mpr hnone)

/-- The lexeme at the start of a text is what `first?` finds. -/
theorem first?_of_reads {lexeme : Lexeme} {piece rest : List Char} (h : Reads lexeme piece rest) :
    ∃ c more, piece = c :: more ∧ first? c (more ++ rest) = some (lexeme, more.length) := by
  cases h with
  | @blanks c more rest first continues ends =>
    refine ⟨c, more, rfl, ?_⟩
    simp [first?, startsWord_of_isBlank first, isDigit_of_isBlank first, first, takeWhile_run continues ends]
  | comment is =>
    obtain ⟨c, more, rfl, hfound⟩ := comment?_of_comment is
    have hslash : c = '/' := by
      by_contra hc
      exact noComment_of_ne hc (c :: more) rest rfl is
    subst hslash
    refine ⟨'/', more, rfl, ?_⟩
    simp [first?, symbolic_slash.word, symbolic_slash.digit, symbolic_slash.blank, hfound]
  | @literal body rest is =>
    refine ⟨'"', body ++ ['"'], rfl, ?_⟩
    have hfound := Quoted.body?_eq_some_iff.mpr ⟨is, rest, rfl⟩
    have hquote : startsWord '"' = false ∧ '"'.isDigit = false ∧ isBlank '"' = false := by decide
    simp [first?, hquote, hfound]
  | @spelling kind piece rest is longest code =>
    cases is with
    | @word c more starts continues =>
      refine ⟨c, more, rfl, ?_⟩
      -- a longer run of the class would be a longer word
      obtain ⟨run, behind, hrest, hrun, hbehind⟩ := exists_run continuesWord rest
      have hword : Spelling _ (c :: (more ++ run)) := .word starts fun x hx =>
        (List.mem_append.mp hx).elim (continues x) (hrun x)
      have hlength := longest _ _ hword ⟨behind, by simp [hrest]⟩
      have hnil : run = [] := by simpa using hlength
      subst hnil hrest
      simp [first?, starts, takeWhile_run continues hbehind]
    | @number c more starts continues =>
      refine ⟨c, more, rfl, ?_⟩
      obtain ⟨run, behind, hrest, hrun, hbehind⟩ := exists_run Char.isDigit rest
      have hnumber : Spelling _ (c :: (more ++ run)) := .number starts fun x hx =>
        (List.mem_append.mp hx).elim (continues x) (hrun x)
      have hlength := longest _ _ hnumber ⟨behind, by simp [hrest]⟩
      have hnil : run = [] := by simpa using hlength
      subst hnil hrest
      simp [first?, startsWord_of_isDigit starts, starts, takeWhile_run continues hbehind]
    | @punctuation text kind listed =>
      obtain ⟨c, more, htext, hc⟩ := symbolic_punctuation listed
      refine ⟨c, more, htext, ?_⟩
      have hfound : punctuation? (c :: (more ++ rest)) = some (text, kind) := by
        rw [punctuation?_eq_some_iff, ← List.cons_append, ← htext]
        exact ⟨listed, List.prefix_append _ _, fun p hp hprefix => longest _ _ (.punctuation hp) hprefix⟩
      have hnone : comment? c (more ++ rest) = none := by
        rw [htext] at code
        exact noComment_iff.mp code
      have hlength : text.length - 1 = more.length := by
        rw [← String.length_toList, htext]
        simp
      simp [first?, hc.word, hc.digit, hc.blank, hc.quote, hnone, hfound, hlength]

/-- Reading one lexeme finds what the text starts with. -/
theorem reads_iff_first? {lexeme : Lexeme} {piece rest : List Char} :
    Reads lexeme piece rest ↔
      ∃ c more, piece = c :: more ∧ first? c (more ++ rest) = some (lexeme, more.length) := by
  refine ⟨first?_of_reads, ?_⟩
  rintro ⟨c, more, rfl, hfound⟩
  simpa using (reads_of_first? hfound).2

/-- Nothing is found where no lexeme starts. -/
theorem unreadable_iff {c : Char} {rest : List Char} : Unreadable (c :: rest) ↔ first? c rest = none := by
  constructor
  · intro h
    by_contra hsome
    obtain ⟨⟨lexeme, n⟩, hfound⟩ := Option.ne_none_iff_exists'.mp hsome
    exact h _ _ _ (by simp) (reads_of_first? hfound).2
  · intro hnone lexeme piece behind htext hreads
    obtain ⟨c', more, rfl, hfound⟩ := first?_of_reads hreads
    simp only [List.cons_append, List.cons.injEq] at htext
    obtain ⟨rfl, rfl⟩ := htext
    rw [hnone] at hfound
    cases hfound

end Lexeme

end OwnLang
