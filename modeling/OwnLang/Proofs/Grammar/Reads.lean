import Mathlib
import OwnLang.Grammar.Cursor
import OwnLang.Proofs.Grammar.Bare
import OwnLang.Proofs.Grammar.Print
import OwnLang.Proofs.Run

/-!
# What a reader takes

`Parse.Reads x text rest Q`: in front of `text ++ rest` the reader `x` takes `text`, stops at `rest`
and returns a value with `Q`. There is one rule for each reader of `Grammar/Cursor.lean`; those for
lists (`reads_collect`, `reads_commaList`, `reads_parameters`) come from `reads_iterate`, which
follows a loop piece by piece.
-/

namespace OwnLang

open TokenKind (sign)
open Surface (commas paren printParams signIf)

/-- The kind of the first token of a text. -/
def headKind (text : List BareToken) : Option TokenKind := text.head?.map (·.1)

@[simp] theorem headKind_cons (t : BareToken) (rest : List BareToken) : headKind (t :: rest) = some t.1 := rfl

theorem headKind_append {text : List BareToken} (h : text ≠ []) (rest : List BareToken) :
    headKind (text ++ rest) = headKind text := by
  cases text with
  | nil => exact absurd rfl h
  | cons t text => rfl

/-- A text starts with a token of certain kinds. -/
def Heads (p : TokenKind → Prop) (text : List BareToken) : Prop := ∃ kind, headKind text = some kind ∧ p kind

theorem heads_cons {p : TokenKind → Prop} {t : BareToken} (h : p t.1) (rest : List BareToken) :
    Heads p (t :: rest) := ⟨t.1, rfl, h⟩

namespace Heads

variable {p q : TokenKind → Prop} {text : List BareToken}

theorem imp (h : Heads p text) (hpq : ∀ kind, p kind → q kind) : Heads q text :=
  Exists.imp (fun kind hkind => ⟨hkind.1, hpq kind hkind.2⟩) h

theorem ne_nil (h : Heads p text) : text ≠ [] := by
  rintro rfl
  obtain ⟨kind, hkind, -⟩ := h
  cases hkind

theorem append (h : Heads p text) (rest : List BareToken) : Heads p (text ++ rest) := by
  rwa [Heads, headKind_append h.ne_nil]

theorem ne (h : Heads p text) {kind : TokenKind} (hkind : ¬p kind) : headKind text ≠ some kind := by
  obtain ⟨kind', hhead, hp⟩ := h
  rw [hhead]
  rintro ⟨⟩
  exact hkind hp

end Heads

@[simp] theorem sign_fst (kind : TokenKind) : (sign kind).1 = kind := rfl

namespace Cursor

/-- The tokens from the current one on, without their places. -/
def ahead (c : Cursor) : List BareToken := (c.current :: c.after).map Token.bare

theorem headKind_ahead (c : Cursor) : headKind c.ahead = some c.kind := rfl

theorem kind_of_ahead {c : Cursor} {text : List BareToken} {kind : TokenKind} (h : c.ahead = text)
    (hkind : headKind text = some kind) : c.kind = kind := by
  rw [← h, headKind_ahead] at hkind
  exact Option.some.inj hkind

theorem ahead_next {c : Cursor} {t : BareToken} {rest : List BareToken} (h : c.ahead = t :: rest)
    (hrest : rest ≠ []) : c.current.bare = t ∧ c.next.ahead = rest := by
  obtain ⟨before, current, after⟩ := c
  simp only [ahead, List.map_cons, List.cons.injEq] at h
  obtain ⟨rfl, rfl⟩ := h
  cases after with
  | nil => exact absurd rfl hrest
  | cons t after => exact ⟨rfl, rfl⟩

theorem peek_of_ahead {c : Cursor} {n : Nat} {t : BareToken} (h : c.ahead[n]? = some t) : c.peek n = t.1 := by
  unfold ahead at h
  rw [List.getElem?_map] at h
  obtain ⟨token, htoken, rfl⟩ := Option.map_eq_some_iff.mp h
  unfold peek
  rw [List.head?_drop, htoken]
  rfl

theorem length_ahead (c : Cursor) : c.ahead.length = c.remaining + 1 := by
  simp [ahead, remaining]

end Cursor

namespace Parse

variable {α β γ : Type}

/-- A reader takes the tokens `text` in front of `rest`, and what it returns has the property `Q`. -/
def Reads (x : Parse α) (text rest : List BareToken) (Q : α → Prop) : Prop :=
  rest ≠ [] → ∀ c : Cursor, c.ahead = text ++ rest → ∃ a d, x c = .ok a d ∧ d.ahead = rest ∧ Q a

variable {x : Parse α} {f : α → Parse β} {text text' rest : List BareToken} {t : BareToken}
  {Q : α → Prop} {R : β → Prop}

/-! ## Sequences -/

theorem reads_pure {a : α} (h : Q a) : Reads (pure a) [] rest Q := fun _ c hc => ⟨a, c, rfl, hc, h⟩

theorem Reads.imp {Q' : α → Prop} (hx : Reads x text rest Q) (h : ∀ a, Q a → Q' a) : Reads x text rest Q' := by
  intro hrest c hc
  obtain ⟨a, d, hrun, hd, ha⟩ := hx hrest c hc
  exact ⟨a, d, hrun, hd, h a ha⟩

theorem Reads.seq (hx : Reads x text (text' ++ rest) Q) (hf : ∀ a, Q a → Reads (f a) text' rest R) :
    Reads (x >>= f) (text ++ text') rest R := by
  intro hrest c hc
  rw [List.append_assoc] at hc
  obtain ⟨a, d, hrun, hd, ha⟩ := hx (by simp [hrest]) c hc
  obtain ⟨b, e, hrun', he, hb⟩ := hf a ha hrest d hd
  exact ⟨b, e, Run.bind_eq_ok.mpr ⟨a, d, hrun, hrun'⟩, he, hb⟩

/-- A step that takes one token. -/
theorem Reads.take (hx : Reads x [t] (text ++ rest) Q) (hf : ∀ a, Q a → Reads (f a) text rest R) :
    Reads (x >>= f) (t :: text) rest R := Reads.seq hx hf

/-- A step that takes nothing. -/
theorem Reads.look (hx : Reads x [] (text ++ rest) Q) (hf : ∀ a, Q a → Reads (f a) text rest R) :
    Reads (x >>= f) text rest R := (Reads.seq hx hf : Reads _ ([] ++ text) rest R)

/-- A step that takes all there is to take. -/
theorem Reads.last (hx : Reads x text rest Q) (hf : ∀ a, Q a → Reads (f a) [] rest R) :
    Reads (x >>= f) text rest R := by
  rw [← List.append_nil text]
  exact Reads.seq (by rwa [List.nil_append]) hf

theorem Reads.map {g : α → β} (hx : Reads x text rest Q) (h : ∀ a, Q a → R (g a)) :
    Reads (g <$> x) text rest R := by
  intro hrest c hc
  obtain ⟨a, d, hrun, hd, ha⟩ := hx hrest c hc
  exact ⟨g a, d, Run.map_eq_ok.mpr ⟨a, hrun, rfl⟩, hd, h a ha⟩

/-! ## Single tokens -/

theorem reads_get : Reads get [] rest (fun c : Cursor => c.ahead = rest) := fun _ c hc => ⟨c, c, rfl, hc, hc⟩

theorem reads_spanFrom (start : Span) : Reads (spanFrom start) [] rest (fun _ => True) :=
  fun _ c hc => ⟨_, c, rfl, hc, trivial⟩

theorem reads_current : Reads current [] rest (fun token : Token => some token.kind = headKind rest) := by
  intro _ c hc
  refine ⟨c.current, c, rfl, hc, ?_⟩
  rw [← List.nil_append rest, ← hc, c.headKind_ahead]
  rfl

theorem reads_kind (kind : TokenKind) (h : headKind (text ++ rest) = some kind) {f : TokenKind → Parse β}
    (hf : Reads (f kind) text rest R) : Reads (Parse.kind >>= f) text rest R := by
  intro hrest c hc
  obtain ⟨b, d, hrun, hd, hb⟩ := hf hrest c hc
  have hkind := Cursor.kind_of_ahead hc h
  exact ⟨b, d, Run.bind_eq_ok.mpr ⟨kind, c, by rw [← hkind]; rfl, hrun⟩, hd, hb⟩

/-- A look at a token of which something is known. -/
theorem reads_kind_of {p : TokenKind → Prop} (h : Heads p (text ++ rest)) {f : TokenKind → Parse β}
    (hf : ∀ kind, p kind → Reads (f kind) text rest R) : Reads (Parse.kind >>= f) text rest R := by
  obtain ⟨kind, hkind, hp⟩ := h
  exact reads_kind kind hkind (hf kind hp)

/-- A look at a token that is not of one kind. -/
theorem reads_kind_ne (kind : TokenKind) (h : headKind (text ++ rest) ≠ some kind) {f : TokenKind → Parse β}
    (hf : ∀ other, other ≠ kind → Reads (f other) text rest R) : Reads (Parse.kind >>= f) text rest R := by
  intro hrest c hc
  refine hf c.kind ?_ hrest c hc
  rintro rfl
  exact h (by rw [← hc, c.headKind_ahead])

theorem reads_peek {n : Nat} (h : (text ++ rest)[n]? = some t) {f : TokenKind → Parse β}
    (hf : Reads (f t.1) text rest R) : Reads (peek n >>= f) text rest R := by
  intro hrest c hc
  obtain ⟨b, d, hrun, hd, hb⟩ := hf hrest c hc
  have hpeek : c.peek n = t.1 := Cursor.peek_of_ahead (hc ▸ h)
  exact ⟨b, d, Run.bind_eq_ok.mpr ⟨t.1, c, by rw [← hpeek]; rfl, hrun⟩, hd, hb⟩

/-- A look ahead that does not matter. -/
theorem reads_peek_any {n : Nat} {f : TokenKind → Parse β} (hf : ∀ kind, Reads (f kind) text rest R) :
    Reads (peek n >>= f) text rest R := fun hrest c hc => hf (c.peek n) hrest c hc

theorem reads_advance : Reads advance [t] rest (fun token => token.bare = t) := by
  intro hrest c hc
  obtain ⟨hcurrent, hnext⟩ := Cursor.ahead_next hc hrest
  exact ⟨_, _, rfl, hnext, hcurrent⟩

theorem reads_expect : Reads (expect t.1) [t] rest (fun token => token.bare = t) := by
  intro hrest c hc
  obtain ⟨hcurrent, hnext⟩ := Cursor.ahead_next hc hrest
  have hkind : c.kind = t.1 := congrArg Prod.fst hcurrent
  exact ⟨_, _, if_pos hkind, hnext, hcurrent⟩

theorem reads_ident (name : Surface.Ident) : Reads ident [name.print] rest (fun name' => name'.bare = name.bare) := by
  refine Reads.last (reads_expect (t := name.print)) fun token htoken => reads_pure ?_
  have hvalue : token.value = name.name := congrArg Prod.snd htoken
  simp [Surface.Ident.bare, hvalue]

theorem reads_eat : Reads (eat t.1) [t] rest (fun eaten => eaten = true) := by
  intro hrest c hc
  obtain ⟨hcurrent, hnext⟩ := Cursor.ahead_next hc hrest
  have hkind : c.kind = t.1 := congrArg Prod.fst hcurrent
  exact ⟨true, _, if_pos hkind, hnext, rfl⟩

theorem reads_eat_other {kind : TokenKind} (h : headKind rest ≠ some kind) :
    Reads (eat kind) [] rest (fun eaten => eaten = false) := by
  intro _ c hc
  have hkind : c.kind ≠ kind := by
    rintro rfl
    exact h (by rw [← List.nil_append rest, ← hc, c.headKind_ahead])
  exact ⟨false, c, if_neg hkind, hc, rfl⟩

/-! ## Loops -/

/-- A loop takes its pieces one by one; `I` holds of the pieces left and of the loop's value. -/
theorem reads_iterate {step : α → Parse (Option α)} {I : List (List BareToken) → α → Prop}
    (hstop : ∀ a, I [] a → Q a ∧ Reads (step a) [] rest (fun next => next = none))
    (hnext : ∀ a piece pieces, I (piece :: pieces) a →
      Reads (step a) piece (pieces.flatten ++ rest) (fun next => ∃ b, next = some b ∧ I pieces b))
    {pieces : List (List BareToken)} {a : α} (hpieces : ∀ piece ∈ pieces, piece ≠ []) (h : I pieces a) :
    Reads (iterate step a) pieces.flatten rest Q := by
  have hloop : ∀ n a, I pieces a → pieces.length < n →
      Reads (iterateAtMost step n a) pieces.flatten rest Q := by
    clear h a
    induction pieces with
    | nil =>
      intro n a ha hn
      obtain ⟨n, rfl⟩ := Nat.exists_eq_succ_of_ne_zero (Nat.ne_zero_of_lt hn)
      obtain ⟨hQ, hstep⟩ := hstop a ha
      exact hstep.last fun next hnone => by
        subst hnone
        exact reads_pure hQ
    | cons piece pieces ih =>
      intro n a ha hn
      obtain ⟨n, rfl⟩ := Nat.exists_eq_succ_of_ne_zero (Nat.ne_zero_of_lt hn)
      rw [List.flatten_cons]
      refine (hnext a piece pieces ha).seq fun next hsome => ?_
      obtain ⟨b, rfl, hb⟩ := hsome
      exact ih (fun t ht => hpieces t (List.mem_cons_of_mem _ ht)) n b hb (by simpa using hn)
  -- every piece has a token, so that the tokens left bound the number of steps
  have hlength : pieces.length ≤ pieces.flatten.length := by
    clear h hloop
    induction pieces with
    | nil => simp
    | cons piece pieces ih =>
      have hpos := List.length_pos_of_ne_nil (hpieces piece List.mem_cons_self)
      have hrest := ih fun t ht => hpieces t (List.mem_cons_of_mem _ ht)
      simp only [List.length_cons, List.flatten_cons, List.length_append]
      omega
  intro hrest c hc
  have hsize : c.ahead.length = pieces.flatten.length + rest.length := by rw [hc, List.length_append]
  rw [c.length_ahead] at hsize
  exact hloop (c.remaining + 2) a h (by omega) hrest c hc

/-- A loop that stops at once. -/
theorem reads_iterate_stop {step : α → Parse (Option α)} {a : α} (h : Q a)
    (hstop : Reads (step a) [] rest (fun next => next = none)) : Reads (iterate step a) [] rest Q :=
  reads_iterate (I := fun pieces b => pieces = [] ∧ b = a)
    (fun _ hb => hb.2 ▸ ⟨h, hstop⟩) (fun _ _ _ hb => nomatch hb.1) (by simp) ⟨rfl, rfl⟩

/-- A loop that takes one step. -/
theorem reads_iterate_once {step : α → Parse (Option α)} {a : α} (htext : text ≠ [])
    (hnext : Reads (step a) text rest (fun next => ∃ b, next = some b ∧ Q b))
    (hstop : ∀ b, Q b → Reads (step b) [] rest (fun next => next = none)) :
    Reads (iterate step a) text rest Q := by
  have hloop : Reads (iterate step a) [text].flatten rest Q := by
    refine reads_iterate (I := fun pieces b => (pieces = [text] ∧ b = a) ∨ (pieces = [] ∧ Q b))
      ?_ ?_ (by simpa using htext) (.inl ⟨rfl, rfl⟩)
    · rintro b (⟨hpieces, -⟩ | ⟨-, hb⟩)
      · cases hpieces
      · exact ⟨hb, hstop b hb⟩
    · rintro b piece pieces (⟨hpieces, rfl⟩ | ⟨hpieces, -⟩)
      · cases hpieces
        exact hnext.imp fun next ⟨b, hb, hQ⟩ => ⟨b, hb, .inr ⟨rfl, hQ⟩⟩
      · cases hpieces
  simpa using hloop

/-- Items of a list read one after another: those done so far have been read back. -/
theorem reads_collect {item : Parse (Option α)} {xs : List β} {piece : β → List BareToken} (view : α → γ)
    (view' : β → γ) (hpiece : ∀ x ∈ xs, piece x ≠ [])
    (hitem : ∀ done x todo, xs = done ++ x :: todo → Reads item (piece x) (todo.flatMap piece ++ rest)
      (fun next => ∃ a, next = some a ∧ view a = view' x))
    (hend : Reads item [] rest (fun next => next = none)) :
    Reads (collect item) (xs.flatMap piece) rest (fun as => as.map view = xs.map view') := by
  have hloop : Reads (iterate (fun items => do return (← item).map (· :: items)) [])
      ((xs.map piece).flatten) rest (fun items => items.reverse.map view = xs.map view') := by
    refine reads_iterate (I := fun pieces items => ∃ done todo, xs = done ++ todo ∧
      pieces = todo.map piece ∧ items.reverse.map view = done.map view') ?_ ?_ ?_ ⟨[], xs, rfl, rfl, rfl⟩
    · rintro items ⟨done, todo, rfl, hpieces, hitems⟩
      have htodo : todo = [] := by simpa using hpieces
      subst htodo
      refine ⟨by simpa using hitems, hend.last fun next hnone => ?_⟩
      subst hnone
      exact reads_pure rfl
    · rintro items piece' pieces ⟨done, todo, rfl, hpieces, hitems⟩
      cases todo with
      | nil => cases hpieces
      | cons x todo =>
        cases hpieces
        rw [← List.flatMap_def]
        refine (hitem done x todo rfl).last fun next hsome => ?_
        obtain ⟨a, rfl, ha⟩ := hsome
        exact reads_pure ⟨a :: items, rfl, done ++ [x], todo, by simp, rfl, by simp [hitems, ha]⟩
    · simpa using hpiece
  rw [List.flatMap_def]
  exact hloop.last fun items hitems => reads_pure hitems

/-- A trial that comes out well. -/
theorem reads_speculate {accept : Cursor → Bool} (hx : Reads x text rest Q)
    (haccept : ∀ d : Cursor, d.ahead = rest → accept d = true) :
    Reads (speculate x accept) text rest (fun result => ∃ a, result = some a ∧ Q a) := by
  intro hrest c hc
  obtain ⟨a, d, hrun, hd, ha⟩ := hx hrest c hc
  exact ⟨some a, d, by simp [speculate, hrun, haccept d hd], hd, a, rfl, ha⟩

/-! ## Lists with commas -/

/-- Pieces with the comma that is behind each but the last. -/
def withCommas : List (List BareToken) → List (List BareToken)
  | [] => []
  | piece :: rest => (piece ++ signIf (!rest.isEmpty) .comma) :: withCommas rest

theorem flatten_withCommas (pieces : List (List BareToken)) : (withCommas pieces).flatten = commas pieces := by
  fun_induction commas pieces with
  | case1 => rfl
  | case2 piece => simp [withCommas, signIf]
  | case3 piece next rest ih => simp [withCommas, signIf, ← ih]

theorem withCommas_ne_nil {pieces : List (List BareToken)} (h : ∀ piece ∈ pieces, piece ≠ []) :
    ∀ piece ∈ withCommas pieces, piece ≠ [] := by
  induction pieces with
  | nil => simp [withCommas]
  | cons piece rest ih =>
    obtain ⟨hpiece, hrest⟩ := List.forall_mem_cons.mp h
    exact List.forall_mem_cons.mpr ⟨by simp [hpiece], ih hrest⟩

theorem withCommas_eq_nil {pieces : List (List BareToken)} (h : withCommas pieces = []) : pieces = [] := by
  cases pieces with
  | nil => rfl
  | cons piece rest => cases h

/-- An item reads its tokens in front of a comma and of the token that closes the list. -/
def ReadsListed (item : Parse α) (close : TokenKind) (text : List BareToken) (Q : α → Prop) : Prop :=
  ∀ t more, t.1 = .comma ∨ t.1 = close → Reads item text (t :: more) Q

/-- An item and the comma behind it, if more pieces follow. -/
theorem reads_listed {σ : Type} (next : α → Bool → σ) {item : Parse α} {close : TokenKind}
    (hclose : close ≠ .comma) {pieces : List (List BareToken)} (hitem : ReadsListed item close text Q) :
    Reads (item >>= fun a => eat .comma >>= fun more => pure (some (next a more)))
      (text ++ signIf (!pieces.isEmpty) .comma) ((withCommas pieces).flatten ++ sign close :: rest)
      (fun result => ∃ a, result = some (next a (!pieces.isEmpty)) ∧ Q a) := by
  cases pieces with
  | nil =>
    refine (hitem _ _ (.inr rfl)).seq fun a ha => ?_
    refine (reads_eat_other (by simpa [withCommas] using hclose)).last fun more hmore => ?_
    subst hmore
    exact reads_pure ⟨a, rfl, ha⟩
  | cons piece pieces =>
    refine (hitem _ _ (.inl rfl)).seq fun a ha => ?_
    refine (reads_eat (t := sign .comma)).last fun more hmore => ?_
    subst hmore
    exact reads_pure ⟨a, rfl, ha⟩

/-- What a list's items start with is not what closes the list. -/
theorem reads_commaList {item : Parse α} {close : TokenKind} (hclose : close ≠ .comma) {xs : List β}
    {piece : β → List BareToken} (view : α → γ) (view' : β → γ)
    (hpiece : ∀ x ∈ xs, Heads (· ≠ close) (piece x))
    (hitem : ∀ x ∈ xs, ReadsListed item close (piece x) fun a => view a = view' x) :
    Reads (commaList close item) (commas (xs.map piece) ++ [sign close]) rest
      (fun as => as.map view = xs.map view') := by
  have hloop : Reads (iterate (commaList.step close item) ([], true)) (withCommas (xs.map piece)).flatten
      (sign close :: rest) (fun state => state.1.reverse.map view = xs.map view') := by
    refine reads_iterate (I := fun pieces state => ∃ done todo, xs = done ++ todo ∧
      pieces = withCommas (todo.map piece) ∧ state.1.reverse.map view = done.map view' ∧
      (todo ≠ [] → state.2 = true)) ?_ ?_ ?_ ⟨[], xs, rfl, rfl, rfl, fun _ => rfl⟩
    · rintro ⟨items, more⟩ ⟨done, todo, rfl, hpieces, hitems, -⟩
      have htodo : todo = [] := by simpa using withCommas_eq_nil hpieces.symm
      subst htodo
      refine ⟨by simpa using hitems, ?_⟩
      cases more with
      | false => exact reads_pure rfl
      | true =>
        refine reads_kind close rfl ?_
        rw [if_pos rfl]
        exact reads_pure rfl
    · rintro ⟨items, more⟩ piece' pieces ⟨done, todo, rfl, hpieces, hitems, hmore⟩
      cases todo with
      | nil => cases hpieces
      | cons x todo =>
        cases hpieces
        obtain rfl : more = true := hmore (List.cons_ne_nil _ _)
        refine reads_kind_of (((hpiece x (by simp)).append _).append _) fun kind hne => ?_
        rw [if_neg hne]
        refine (reads_listed (fun a more => (a :: items, more)) hclose (hitem x (by simp))).imp fun next hnext => ?_
        obtain ⟨a, rfl, ha⟩ := hnext
        exact ⟨_, rfl, done ++ [x], todo, by simp, rfl, by simp [hitems, ha], by simp⟩
    · refine withCommas_ne_nil fun t ht => ?_
      obtain ⟨x, hx, rfl⟩ := List.mem_map.mp ht
      exact (hpiece x hx).ne_nil
  rw [← flatten_withCommas]
  refine hloop.seq fun state hstate => ?_
  exact (reads_expect (t := sign close)).last fun _ _ => reads_pure hstate

/-- The `...` behind parameters, where others may follow. -/
abbrev dots (variadic : Bool) : List (List BareToken) := if variadic then [[sign .ellipsis]] else []

/-- What the loop over parameters has left, and what it has read: the first of them, with the others and the
`...` left, or all and the `...`. -/
inductive ParametersRead (xs : List β) (piece : β → List BareToken) (variadic : Bool) (view : α → γ) (view' : β → γ) :
    List (List BareToken) → List α × Bool × Bool → Prop
  | part {done todo : List β} {pieces : List (List BareToken)} {items : List α} {more : Bool} (split : xs = done ++ todo)
    (left : pieces = withCommas (todo.map piece ++ dots variadic)) (read : items.reverse.map view = done.map view')
    (goesOn : pieces ≠ [] → more = true) : ParametersRead xs piece variadic view view' pieces (items, false, more)
  | all {items : List α} (ended : variadic = true) (read : items.reverse.map view = xs.map view') :
    ParametersRead xs piece variadic view view' [] (items, true, false)

section

variable {item : Parse α} {xs : List β} {piece : β → List BareToken} {variadic : Bool} {view : α → γ} {view' : β → γ}

/-- The loop ends where nothing is left. -/
theorem ParametersRead.ends {state : List α × Bool × Bool} (h : ParametersRead xs piece variadic view view' [] state) :
    (state.1.reverse.map view = xs.map view' ∧ state.2.1 = variadic) ∧
      Reads (parameters.step item state) [] (sign .closeParen :: rest) (fun next => next = none) := by
  cases h with
  | @part done todo _ items more split left read _ =>
    obtain ⟨htodo, hdots⟩ := List.append_eq_nil_iff.mp (withCommas_eq_nil left.symm)
    obtain rfl : todo = [] := by simpa using htodo
    obtain rfl : variadic = false := by simpa using hdots
    refine ⟨⟨by simpa [split] using read, rfl⟩, ?_⟩
    cases more with
    | false => exact reads_pure rfl
    | true =>
      refine reads_kind .closeParen rfl ?_
      rw [if_pos rfl]
      exact reads_pure rfl
  | all ended read => exact ⟨⟨read, ended.symm⟩, reads_pure rfl⟩

/-- A round of the loop takes a parameter. -/
theorem reads_parameter {x : β} {done todo : List β} {items : List α} (hsplit : xs = done ++ x :: todo)
    (hread : items.reverse.map view = done.map view')
    (hpiece : Heads (fun kind => kind ≠ .closeParen ∧ kind ≠ .ellipsis) (piece x))
    (hitem : ReadsListed item .closeParen (piece x) fun a => view a = view' x) :
    Reads (parameters.step item (items, false, true))
      (piece x ++ signIf (!(todo.map piece ++ dots variadic).isEmpty) .comma)
      ((withCommas (todo.map piece ++ dots variadic)).flatten ++ sign .closeParen :: rest)
      (fun next => ∃ state, next = some state ∧
        ParametersRead xs piece variadic view view' (withCommas (todo.map piece ++ dots variadic)) state) := by
  have hhead (text : List BareToken) := (hpiece.append
    (signIf (!(todo.map piece ++ dots variadic).isEmpty) .comma)).append text
  refine reads_kind_of (hhead _) fun kind hkind => ?_
  rw [if_neg hkind.1]
  refine (reads_eat_other ((hhead _).ne fun h => h.2 rfl)).look fun eaten heaten => ?_
  subst heaten
  refine (reads_listed (fun a more => (a :: items, false, more)) (by decide) hitem).imp fun next hnext => ?_
  obtain ⟨a, rfl, ha⟩ := hnext
  refine ⟨_, rfl, .part (show xs = done ++ [x] ++ todo by simp [hsplit]) rfl (by simp [hread, ha]) fun hleft => ?_⟩
  cases hlist : todo.map piece ++ dots variadic with
  | nil =>
    rw [hlist] at hleft
    exact absurd rfl hleft
  | cons _ _ => rfl

/-- A round of the loop takes the `...`. -/
theorem reads_dots {items : List α} (hread : items.reverse.map view = xs.map view') :
    Reads (parameters.step item (items, false, true)) [sign .ellipsis] (sign .closeParen :: rest)
      (fun next => ∃ state, next = some state ∧ ParametersRead xs piece true view view' [] state) := by
  refine reads_kind .ellipsis rfl ?_
  rw [if_neg (by decide)]
  refine (reads_eat (t := sign .ellipsis)).last fun eaten heaten => ?_
  subst heaten
  exact reads_pure ⟨_, rfl, .all rfl hread⟩

end

/-- What a parameter starts with neither closes the list nor says that others may follow. -/
theorem reads_parameters {item : Parse α} (xs : List β) (piece : β → List BareToken) (variadic : Bool)
    (view : α → γ) (view' : β → γ)
    (hpiece : ∀ x ∈ xs, Heads (fun kind => kind ≠ .closeParen ∧ kind ≠ .ellipsis) (piece x))
    (hitem : ∀ x ∈ xs, ReadsListed item .closeParen (piece x) fun a => view a = view' x) :
    Reads (parameters item) (commas (xs.map piece ++ if variadic then [[sign .ellipsis]] else [])
        ++ [sign .closeParen]) rest
      (fun params => params.1.map view = xs.map view' ∧ params.2 = variadic) := by
  have hloop : Reads (iterate (parameters.step item) ([], false, true))
      (withCommas (xs.map piece ++ dots variadic)).flatten (sign .closeParen :: rest)
      (fun state => state.1.reverse.map view = xs.map view' ∧ state.2.1 = variadic) := by
    refine reads_iterate (I := ParametersRead xs piece variadic view view') (fun _ h => h.ends) ?_ ?_
      (.part (show xs = [] ++ xs from rfl) rfl rfl fun _ => rfl)
    · rintro _ piece' pieces (⟨hsplit, hleft, hread, hmore⟩ | _)
      rename_i done todo items more
      obtain rfl : more = true := hmore (List.cons_ne_nil _ _)
      cases todo with
      | cons x todo =>
        cases hleft
        exact reads_parameter hsplit hread (hpiece x (by simp [hsplit])) (hitem x (by simp [hsplit]))
      | nil =>
        cases variadic with
        | false => cases hleft
        | true =>
          cases hleft
          exact reads_dots (by simpa [hsplit] using hread)
    · refine withCommas_ne_nil fun t ht => ?_
      rcases List.mem_append.mp ht with ht | ht
      · obtain ⟨x, hx, rfl⟩ := List.mem_map.mp ht
        exact (hpiece x hx).ne_nil
      · cases variadic with
        | false => cases ht
        | true => simp [List.mem_singleton.mp ht]
  rw [← flatten_withCommas]
  refine hloop.seq fun state hstate => ?_
  exact (reads_expect (t := sign .closeParen)).last fun _ _ => reads_pure hstate

/-- A list of one or more items; no comma may follow the last. -/
theorem reads_commaSeparated {item : Parse α} {x : β} {xs : List β} {piece : β → List BareToken}
    (close : TokenKind) (hclose : close ≠ .comma) (hrest : headKind rest = some close) (view : α → γ)
    (view' : β → γ) (hitem : ∀ y ∈ x :: xs, ReadsListed item close (piece y) fun a => view a = view' y) :
    Reads (commaSeparated item) (commas ((x :: xs).map piece)) rest
      (fun as => as.map view = (x :: xs).map view') := by
  have hcommas : ∀ (first : β) (more : List β), commas ((first :: more).map piece) =
      piece first ++ more.flatMap fun y => sign .comma :: piece y := by
    intro first more
    induction more generalizing first with
    | nil => simp [commas]
    | cons y more ih => simp only [List.map_cons, commas, List.flatMap_cons, List.cons_append] at ih ⊢; rw [ih]
  have hstart : ∀ more : List β, ∃ t text, more.flatMap (fun y => sign .comma :: piece y) ++ rest = t :: text ∧
      (t.1 = .comma ∨ t.1 = close) := by
    intro more
    cases more with
    | nil =>
      cases rest with
      | nil => cases hrest
      | cons t rest => exact ⟨t, rest, rfl, .inr (Option.some.inj hrest)⟩
    | cons y more => exact ⟨_, _, rfl, .inl rfl⟩
  have hlisted : ∀ y ∈ x :: xs, ∀ more : List β, Reads item (piece y)
      (more.flatMap (fun y => sign .comma :: piece y) ++ rest) fun a => view a = view' y := by
    intro y hy more
    obtain ⟨t, text, htext, ht⟩ := hstart more
    rw [htext]
    exact hitem y hy t text ht
  rw [hcommas]
  refine (hlisted x (by simp) xs).seq fun a ha => ?_
  refine (reads_collect view view' (by simp) (fun done y todo hsplit => ?_) ?_).last fun as has =>
    reads_pure (by simp [ha, has])
  · refine (reads_eat (t := sign .comma)).take fun eaten heaten => ?_
    subst heaten
    exact (hlisted y (by simp [hsplit]) todo).last fun b hb => reads_pure ⟨b, rfl, hb⟩
  · refine (reads_eat_other (by simpa [hrest] using hclose)).last fun eaten heaten => ?_
    subst heaten
    exact reads_pure rfl

end Parse

end OwnLang
