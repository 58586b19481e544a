import OwnLang.Proofs.Grammar.Progress
import OwnLang.Proofs.Grammar.Spelling

/-!
# Nodes are written in the tokens that they are read from

The tokens that a reader takes are written in a form of what it gives (`Parse.Spelled`), and a node has the
span of all of them (`Parse.Stands`). Each reader is taken apart into the ones that it calls, whose forms
stand one behind the other (`Cursor.Writes.trans`), and what it builds from them is a node of its own
(`Cursor.Writes.node`). The nonterminals go by the depth of the grammar (`spelled_rule`).
-/

namespace OwnLang

open Surface (Node)
open Spelling (Piece sign)

namespace Spelling

theorem Spells.append {ts us : List Token} {ps qs : List Piece} (h : Spells ts ps) (h' : Spells us qs) :
    Spells (ts ++ us) (ps ++ qs) := by
  induction h with
  | nil => exact h'
  | token ht _ ih => exact .token ht ih
  | node hform hown hspan hmore _ _ _ ih =>
    rw [List.append_assoc, List.append_assoc]
    exact .node hform hown hspan hmore ih

theorem Spells.ne_nil {ts : List Token} {ps : List Piece} (h : Spells ts ps) (hps : ps ≠ []) : ts ≠ [] := by
  cases h with
  | nil => exact absurd rfl hps
  | token => exact List.cons_ne_nil _ _
  | node _ _ hspan =>
    obtain ⟨first, last, hfirst, -⟩ := hspan
    intro hnil
    rw [(List.append_eq_nil_iff.mp hnil).1] at hfirst
    cases hfirst

end Spelling

namespace Cursor

variable {c d e : Cursor} {own more : List Token} {form form' : List Piece} {n : Node}

/-! ## Tokens that are taken -/

/-- The tokens from `c` up to `d`. -/
structure Taken (c : Cursor) (own : List Token) (d : Cursor) : Prop where
  before : d.before = own.reverse ++ c.before
  rest : c.current :: c.after = own ++ d.current :: d.after

theorem taken_refl (c : Cursor) : c.Taken [] c := ⟨rfl, rfl⟩

theorem Taken.trans (h : c.Taken own d) (h' : d.Taken more e) : c.Taken (own ++ more) e where
  before := by rw [h'.before, h.before, List.reverse_append, List.append_assoc]
  rest := by rw [h.rest, h'.rest, List.append_assoc]

/-- Only the `eof` at the end is left as it is. -/
theorem taken_next (hc : Token.Ended c.tokens) (hkind : c.kind ≠ .eof) : c.Taken [c.current] c.next := by
  obtain ⟨before, current, _ | ⟨t, after⟩⟩ := c
  · obtain ⟨front, last, htokens, hlast⟩ := hc
    obtain ⟨-, hsame⟩ := List.append_inj' htokens rfl
    cases hsame
    exact absurd hlast hkind
  · exact ⟨rfl, rfl⟩

theorem spanFrom_next (hc : Token.Ended c.tokens) (hkind : c.kind ≠ .eof) (s : Span) :
    c.next.spanFrom s = s.upTo c.current.span := by
  simp only [spanFrom, previousEnd, (taken_next hc hkind).before]
  rfl

/-- From the first token taken to the last. -/
theorem Taken.covers (h : c.Taken own d) (hown : own ≠ []) : (d.spanFrom c.current.span).Covers own := by
  refine ⟨c.current, own.getLast hown, ?_, List.getLast?_eq_some_getLast hown, rfl, rfl, ?_⟩
  · have hrest := congrArg List.head? h.rest
    rw [List.head?_append_of_ne_nil _ hown] at hrest
    exact hrest.symm
  · have hbefore := h.before
    rw [← List.dropLast_append_getLast hown, List.reverse_append] at hbefore
    simp only [spanFrom, previousEnd, hbefore]
    simp

/-! ## What is written between two cursors -/

/-- The tokens from `c` up to `d` are written in a form. -/
structure Writes (c : Cursor) (form : List Piece) (d : Cursor) : Prop where
  ended : Token.Ended d.tokens
  spelled : ∃ own, c.Taken own d ∧ Spelling.Spells own form

/-- A node that is written from `c` to `d`, and has the span of that. -/
structure Holds (c : Cursor) (n : Node) (d : Cursor) : Prop where
  writes : c.Writes [.node n] d
  span : n.span = d.spanFrom c.current.span

theorem writes_nil (hc : Token.Ended c.tokens) : c.Writes [] c := ⟨hc, [], taken_refl c, .nil⟩

theorem Writes.trans (h : c.Writes form d) (h' : d.Writes form' e) : c.Writes (form ++ form') e := by
  obtain ⟨-, own, htaken, hspelled⟩ := h
  obtain ⟨hended, more, htaken', hspelled'⟩ := h'
  exact ⟨hended, own ++ more, htaken.trans htaken', hspelled.append hspelled'⟩

/-- A token that is taken. -/
theorem writes_token {p : Token → Prop} (hc : Token.Ended c.tokens) (hkind : c.kind ≠ .eof) (hp : p c.current) :
    c.Writes [.token p] c.next :=
  ⟨(tokens_next c).symm ▸ hc, _, taken_next hc hkind, .token hp .nil⟩

/-- What is written in the form of a node, with its span and with more behind it. -/
theorem Writes.nodeBefore {behind : List Piece} (h : c.Writes form d) (hform : Spelling.Production n form behind)
    (hne : form ≠ []) (hspan : n.span = d.spanFrom c.current.span) (hbehind : d.Writes behind e) :
    c.Writes [.node n] e := by
  obtain ⟨-, own, htaken, hspelled⟩ := h
  obtain ⟨hended, more, htaken', hspelled'⟩ := hbehind
  refine ⟨hended, own ++ more, htaken.trans htaken', ?_⟩
  have hnode := Spelling.Spells.node hform hspelled (hspan ▸ htaken.covers (hspelled.ne_nil hne)) hspelled' .nil
  simpa using hnode

/-- What is written in the form of a node, with its span. -/
theorem Writes.node (h : c.Writes form d) (hform : Spelling.Production n form []) (hne : form ≠ [])
    (hspan : n.span = d.spanFrom c.current.span) : c.Holds n d :=
  ⟨h.nodeBefore hform hne hspan (writes_nil h.ended), hspan⟩

/-- A span that goes on up to the end of a node. -/
theorem Holds.upTo (h : c.Holds n d) (s : Span) : s.upTo n.span = d.spanFrom s := by
  rw [h.span]
  rfl

/-- A span that goes on from the start of a node. -/
theorem Holds.spanFrom (h : c.Holds n d) (e : Cursor) : e.spanFrom n.span = e.spanFrom c.current.span := by
  rw [h.span]
  rfl

end Cursor

namespace Parse

variable {α β : Type} {x : Parse α} {form : α → List Piece} {node : α → Node} {c d : Cursor}

/-- What a reader takes is written in a form of what it gives. -/
def Spelled (form : α → List Piece) (x : Parse α) : Prop :=
  ∀ ⦃c a d⦄, Token.Ended c.tokens → x c = .ok a d → c.Writes (form a) d

/-- A reader gives a node that stands where its tokens are. -/
def Stands (node : α → Node) (x : Parse α) : Prop :=
  ∀ ⦃c a d⦄, Token.Ended c.tokens → x c = .ok a d → c.Holds (node a) d

theorem Stands.spelled (h : Stands node x) : Spelled (fun a => [.node (node a)]) x :=
  fun _ _ _ hc hrun => (h hc hrun).writes

theorem Spelled.bind {f : α → Parse β} {b : β} {e : Cursor} (hx : Spelled form x) (hc : Token.Ended c.tokens)
    (h : (x >>= f) c = .ok b e) : ∃ a d, c.Writes (form a) d ∧ f a d = .ok b e := by
  obtain ⟨a, d, ha, h⟩ := Run.bind_eq_ok.mp h
  exact ⟨a, d, hx hc ha, h⟩

theorem Stands.bind {f : α → Parse β} {b : β} {e : Cursor} (hx : Stands node x) (hc : Token.Ended c.tokens)
    (h : (x >>= f) c = .ok b e) : ∃ a d, c.Holds (node a) d ∧ f a d = .ok b e := by
  obtain ⟨a, d, ha, h⟩ := Run.bind_eq_ok.mp h
  exact ⟨a, d, hx hc ha, h⟩

/-! ## Single tokens -/

theorem expect_bind {kind : TokenKind} {f : Token → Parse α} {a : α} (hc : Token.Ended c.tokens)
    (hkind : kind ≠ .eof) (h : (expect kind >>= f) c = .ok a d) :
    c.Writes [sign kind] c.next ∧ f c.current c.next = .ok a d := by
  obtain ⟨_, _, htoken, h⟩ := Run.bind_eq_ok.mp h
  obtain ⟨rfl, rfl, rfl⟩ := expect_eq_ok htoken
  exact ⟨Cursor.writes_token hc hkind rfl, h⟩

theorem advance_bind {kind : TokenKind} {f : Token → Parse α} {a : α} (hc : Token.Ended c.tokens)
    (hthere : c.kind = kind) (hkind : kind ≠ .eof) (h : (advance >>= f) c = .ok a d) :
    c.Writes [sign kind] c.next ∧ f c.current c.next = .ok a d :=
  ⟨Cursor.writes_token hc (hthere ▸ hkind) hthere, h⟩

theorem kind_bind {f : TokenKind → Parse α} {a : α} (h : (kind >>= f) c = .ok a d) :
    ∃ k, c.kind = k ∧ f k c = .ok a d := ⟨_, rfl, h⟩

/-- A token that is taken if it is there. -/
theorem eat_eq_ok {kind : TokenKind} {taken : Bool} (h : eat kind c = .ok taken d) :
    (taken = true ∧ c.kind = kind ∧ d = c.next) ∨ (taken = false ∧ d = c) := by
  unfold eat at h
  split at h
  · cases h
    exact .inl ⟨rfl, ‹_›, rfl⟩
  · cases h
    exact .inr ⟨rfl, rfl⟩

theorem writes_eat {kind : TokenKind} {taken : Bool} (hc : Token.Ended c.tokens) (hkind : kind ≠ .eof)
    (h : eat kind c = .ok taken d) : c.Writes (if taken then [sign kind] else []) d := by
  rcases eat_eq_ok h with ⟨rfl, hthere, rfl⟩ | ⟨rfl, rfl⟩
  · exact Cursor.writes_token hc (hthere ▸ hkind) hthere
  · exact Cursor.writes_nil hc

theorem spelled_ident : Spelled (fun x => [Spelling.name x]) ident := by
  intro c x d hc h
  obtain ⟨token, _, htoken, h⟩ := Run.bind_eq_ok.mp h
  obtain ⟨hkind, rfl, rfl⟩ := expect_eq_ok htoken
  cases h
  exact Cursor.writes_token hc (by rw [hkind]; decide) ⟨hkind, rfl, rfl⟩

/-! ## Lists -/

theorem spelled_collect {item : Parse (Option α)} (hitem : Spelled (fun next => next.toList.flatMap form) item) :
    Spelled (fun l => l.flatMap form) (collect item) := by
  intro c l d hc h
  refine collect_induction (P := fun l d => c.Writes (l.flatMap form) d) (fun {l next d e} hl hnext => ?_)
    (Cursor.writes_nil hc) h
  rw [List.flatMap_append]
  exact hl.trans (hitem hl.ended hnext)

/-- Items that are read so far, and whether others may follow: then a comma stands behind each. -/
def Begun (items : List (List Piece)) (more : Bool) (inner : List Piece) : Prop :=
  if more then inner = Spelling.ended items else Spelling.Listed items inner

theorem begun_nil : Begun [] true [] := rfl

theorem Begun.listed {items : List (List Piece)} {more : Bool} {inner : List Piece} (h : Begun items more inner) :
    Spelling.Listed items inner := by
  cases more with
  | false => exact h
  | true => exact .inl h

theorem Begun.concat {items : List (List Piece)} {inner last : List Piece} (h : Begun items true inner)
    (more : Bool) :
    Begun (items ++ [last]) more (inner ++ (last ++ if more then [sign .comma] else [])) := by
  cases h
  cases more with
  | false => exact .inr ⟨items, last, rfl, by simp⟩
  | true => simp [Begun, Spelling.ended]

/-- Items in front of a closing token. -/
theorem writes_commaList {close : TokenKind} {item : Parse α} {l : List α} (hclose : close ≠ .eof)
    (hitem : Spelled form item) (hc : Token.Ended c.tokens) (h : commaList close item c = .ok l d) :
    ∃ inner, Spelling.Listed (l.map form) inner ∧ c.Writes (inner ++ [sign close]) d := by
  obtain ⟨⟨reversed, more⟩, c₁, hloop, h⟩ := Run.bind_eq_ok.mp h
  have hread := iterate_induction
    (P := fun s e => ∃ inner, Begun (s.1.reverse.map form) s.2 inner ∧ c.Writes inner e)
    (fun {s next d₁ d₂} hs hround => ?_) ⟨[], begun_nil, Cursor.writes_nil hc⟩ hloop
  · obtain ⟨inner, hbegun, hwrites⟩ := hread
    obtain ⟨wclose, h⟩ := expect_bind hwrites.ended hclose h
    cases h
    exact ⟨inner, hbegun.listed, hwrites.trans wclose⟩
  obtain ⟨inner, hbegun, hwrites⟩ := hs
  obtain ⟨items, _ | _⟩ := s
  · cases hround
    exact ⟨inner, hbegun, hwrites⟩
  obtain ⟨_, _, hkind, hround⟩ := Run.bind_eq_ok.mp hround
  cases hkind
  split at hround
  · cases hround
    exact ⟨inner, hbegun, hwrites⟩
  obtain ⟨a, d₃, ha, hround⟩ := Run.bind_eq_ok.mp hround
  obtain ⟨comma, d₄, hcomma, hround⟩ := Run.bind_eq_ok.mp hround
  cases hround
  have hlast := hitem hwrites.ended ha
  refine ⟨_, ?_, hwrites.trans (hlast.trans (writes_eat hlast.ended (by decide) hcomma))⟩
  simpa using hbegun.concat comma

/-- Parameters that are read so far, whether `...` stands behind them, and whether others may follow. -/
def ParametersBegun (params : List (List Piece)) (variadic more : Bool) (inner : List Piece) : Prop :=
  (variadic = false ∧ Begun params more inner) ∨
    (more = false ∧ Spelling.Parameters params variadic inner)

theorem ParametersBegun.parameters {params : List (List Piece)} {variadic more : Bool} {inner : List Piece}
    (h : ParametersBegun params variadic more inner) : Spelling.Parameters params variadic inner := by
  rcases h with ⟨rfl, h⟩ | ⟨-, h⟩
  · exact .inl ⟨rfl, h.listed⟩
  · exact h

/-- Parameters in front of their closing parenthesis. -/
theorem writes_parameters {item : Parse α} {l : List α} {variadic : Bool} (hitem : Spelled form item)
    (hc : Token.Ended c.tokens) (h : parameters item c = .ok (l, variadic) d) :
    ∃ inner, Spelling.Parameters (l.map form) variadic inner ∧ c.Writes (inner ++ [sign .closeParen]) d := by
  obtain ⟨⟨reversed, seen, more⟩, c₁, hloop, h⟩ := Run.bind_eq_ok.mp h
  have hread := iterate_induction
    (P := fun s e => ∃ inner, ParametersBegun (s.1.reverse.map form) s.2.1 s.2.2 inner ∧ c.Writes inner e)
    (fun {s next d₁ d₂} hs hround => ?_) ⟨[], .inl ⟨rfl, begun_nil⟩, Cursor.writes_nil hc⟩ hloop
  · obtain ⟨inner, hbegun, hwrites⟩ := hread
    obtain ⟨wclose, h⟩ := expect_bind hwrites.ended (by decide) h
    cases h
    exact ⟨inner, hbegun.parameters, hwrites.trans wclose⟩
  obtain ⟨inner, hbegun, hwrites⟩ := hs
  obtain ⟨items, seen, _ | _⟩ := s
  · cases hround
    exact ⟨inner, hbegun, hwrites⟩
  obtain ⟨_, _, hkind, hround⟩ := Run.bind_eq_ok.mp hround
  cases hkind
  split at hround
  · cases hround
    exact ⟨inner, hbegun, hwrites⟩
  obtain ⟨-, hbegun⟩ : seen = false ∧ Begun (items.reverse.map form) true inner := by
    simpa [ParametersBegun] using hbegun
  obtain ⟨ellipsis, d₃, hellipsis, hround⟩ := Run.bind_eq_ok.mp hround
  have hmore := hwrites.trans (writes_eat hwrites.ended (by decide) hellipsis)
  cases ellipsis with
  | true =>
    cases hround
    exact ⟨_, .inr ⟨rfl, .inr ⟨rfl, by rw [hbegun]; rfl⟩⟩, hmore⟩
  | false =>
    obtain ⟨a, d₄, ha, hround⟩ := Run.bind_eq_ok.mp hround
    obtain ⟨comma, d₅, hcomma, hround⟩ := Run.bind_eq_ok.mp hround
    cases hround
    have hlast := hitem hmore.ended ha
    refine ⟨_, .inl ⟨rfl, ?_⟩, hmore.trans (hlast.trans (writes_eat hlast.ended (by decide) hcomma))⟩
    simpa using hbegun.concat comma

/-- One or more items with commas between them. -/
theorem writes_commaSeparated {item : Parse α} {l : List α} (hitem : Spelled form item)
    (hc : Token.Ended c.tokens) (h : commaSeparated item c = .ok l d) :
    ∃ inner, Spelling.Separated (l.map form) inner ∧ c.Writes inner d := by
  obtain ⟨first, c₁, hfirst, h⟩ := Run.bind_eq_ok.mp h
  obtain ⟨rest, _, hrest, h⟩ := Run.bind_eq_ok.mp h
  cases h
  refine collect_induction
    (P := fun rest d => ∃ inner, Spelling.Separated ((first :: rest).map form) inner ∧ c.Writes inner d)
    (fun {l next d₁ d₂} hl hround => ?_) ⟨form first, ⟨[], _, rfl, rfl⟩, hitem hc hfirst⟩ hrest
  obtain ⟨_, ⟨init, last, hlist, rfl⟩, hwrites⟩ := hl
  obtain ⟨comma, d₃, hcomma, hround⟩ := Run.bind_eq_ok.mp hround
  have hmore := hwrites.trans (writes_eat hwrites.ended (by decide) hcomma)
  cases comma with
  | false =>
    cases hround
    exact ⟨_, ⟨init, last, by simpa using hlist, by simp⟩, hmore⟩
  | true =>
    obtain ⟨a, d₄, ha, hround⟩ := Run.bind_eq_ok.mp hround
    cases hround
    refine ⟨_, ⟨init ++ [last], form a, ?_, ?_⟩, hmore.trans (hitem hmore.ended ha)⟩
    · rw [← hlist]
      simp
    · simp [Spelling.ended]

end Parse

namespace Grammar

open Surface (Ident Expr TypeExpr Stmt Block)
open Parse Cursor

/-- The nonterminals that others refer to are written where they are read. -/
structure Spelled (sub : Readers) : Prop where
  expr (power : Power) : Stands .expr (sub (.expr power))
  type (power : Power) : Stands .type (sub (.type power))
  stmt : Parse.Spelled Spelling.stmt (sub .stmt)
  block : Stands .block (sub .block)

variable {c d e : Cursor}

/-! ## Types -/

theorem writes_path {names : List Ident} (hc : Token.Ended c.tokens) (h : path c = .ok names d) :
    c.Writes (Spelling.path names) d ∧ Spelling.path names ≠ [] ∧
      pathStart names = c.current.span ∧ Ident.pathSpan names = d.spanFrom c.current.span := by
  obtain ⟨first, c₁, hfirst, h⟩ := Run.bind_eq_ok.mp h
  obtain ⟨rest, _, hrest, h⟩ := Run.bind_eq_ok.mp h
  cases h
  obtain ⟨hkind, hspan, hnext⟩ := ident_eq_ok hfirst
  have hstart : c₁.spanFrom first.span = first.span := by
    rw [hnext, spanFrom_next hc (by rw [hkind]; decide), ← hspan]
    rfl
  have hread := collect_induction
    (P := fun l d => c.Writes (Spelling.path (first :: l)) d ∧ Ident.pathSpan (first :: l) = d.spanFrom first.span)
    (fun {l next d₁ d₂} hl hround => ?_) ⟨spelled_ident hc hfirst, hstart.symm⟩ hrest
  · exact ⟨hread.1, List.cons_ne_nil _ _, hspan, hspan ▸ hread.2⟩
  obtain ⟨colons, d₃, hcolons, hnext'⟩ := Run.bind_eq_ok.mp hround
  have hmore := hl.1.trans (writes_eat hl.1.ended (by decide) hcolons)
  rcases eat_eq_ok hcolons with ⟨rfl, -, -⟩ | ⟨rfl, rfl⟩
  · obtain ⟨x, d₄, hx, hnext'⟩ := Run.bind_eq_ok.mp hnext'
    cases hnext'
    obtain ⟨hkind', hspan', hnext'⟩ := ident_eq_ok hx
    refine ⟨by simpa [Spelling.path] using hmore.trans (spelled_ident hmore.ended hx), ?_⟩
    rw [hnext', spanFrom_next hmore.ended (by rw [hkind']; decide), ← hspan']
    simp [Ident.pathSpan]
  · cases hnext'
    simpa using hl

variable {sub : Readers} (hsub : Spelled sub)

include hsub

theorem writes_typeArguments {args : List TypeExpr} (hc : Token.Ended c.tokens)
    (h : typeArguments sub c = .ok args d) :
    ∃ form, Spelling.TypeArgs args form ∧ c.Writes form d := by
  obtain ⟨wopen, h⟩ := expect_bind hc (by decide) h
  obtain ⟨args, c₂, hargs, h⟩ := Run.bind_eq_ok.mp h
  obtain ⟨inner, hinner, wargs⟩ := writes_commaSeparated (hsub.type .lowest).spelled wopen.ended hargs
  obtain ⟨wclose, h⟩ := expect_bind wargs.ended (by decide) h
  cases h
  exact ⟨_, .inr ⟨inner, hinner, rfl⟩, wopen.trans (wargs.trans wclose)⟩

theorem stands_namedType : Stands .type (namedType sub) := by
  intro c t d hc h
  obtain ⟨names, c₁, hnames, h⟩ := Run.bind_eq_ok.mp h
  obtain ⟨wnames, hne, hstart, -⟩ := writes_path hc hnames
  obtain ⟨k, hnext, h⟩ := kind_bind h
  split at h
  · obtain ⟨args, c₂, hargs, h⟩ := Run.bind_eq_ok.mp h
    obtain ⟨form, hform, wargs⟩ := writes_typeArguments hsub wnames.ended hargs
    cases h
    exact (wnames.trans wargs).node (.named hform) (by simp [hne]) (hstart ▸ rfl)
  · cases h
    exact (wnames.trans (writes_nil wnames.ended)).node (.named (.inl ⟨rfl, rfl⟩)) (by simp [hne]) (hstart ▸ rfl)

/-- A pointer type, behind the `const` if there is one. -/
theorem writes_pointerType {constant : Bool} {t : TypeExpr} (hc : Token.Ended c.tokens)
    (hkind : c.kind = .ampersand ∨ c.kind = .star) (h : pointerType sub constant c = .ok t d) :
    ∃ form, Spelling.Pointer constant t.kind form ∧ form ≠ [] ∧ c.Writes form d ∧
      t.span = d.spanFrom c.current.span := by
  obtain ⟨wsigil, h⟩ := advance_bind hc rfl (by rcases hkind with hkind | hkind <;> rw [hkind] <;> decide) h
  obtain ⟨target, c₂, htarget, h⟩ := (hsub.type .unary).bind wsigil.ended h
  split at h
  · rename_i hsign
    cases h
    rw [show c.kind = _ from hsign] at wsigil
    exact ⟨_, .owner, List.cons_ne_nil _ _, wsigil.trans htarget.writes, htarget.upTo _⟩
  · rename_i hsign
    cases h
    rw [hkind.resolve_left hsign] at wsigil
    exact ⟨_, .shared, List.cons_ne_nil _ _, wsigil.trans htarget.writes, htarget.upTo _⟩

theorem holds_constType {t : TypeExpr} (hc : Token.Ended c.tokens) (hkind : c.kind = .kwConst)
    (h : constType sub c = .ok t d) : c.Holds (.type t) d := by
  obtain ⟨wconst, h⟩ := advance_bind hc hkind (by decide) h
  have hpointer (hsigil : c.next.kind = .ampersand ∨ c.next.kind = .star)
      (h : (pointerType sub true >>= fun type => return type.withSpan (← spanFrom c.current.span)) c.next =
        .ok t d) : c.Holds (.type t) d := by
    obtain ⟨target, c₂, htarget, h⟩ := Run.bind_eq_ok.mp h
    obtain ⟨form, hform, -, wtarget, -⟩ := writes_pointerType hsub wconst.ended hsigil htarget
    cases h
    exact (wconst.trans wtarget).node (.constPointer hform) (List.cons_ne_nil _ _) rfl
  obtain ⟨k, hnext, h⟩ := kind_bind h
  split at h
  · exact hpointer (.inl hnext) h
  · exact hpointer (.inr hnext) h
  · obtain ⟨⟨kind, inner⟩, c₂, hinner, h⟩ := (hsub.type .unary).bind wconst.ended h
    cases kind with
    | array element constant size =>
      cases h
      exact (wconst.trans hinner.writes).node .constArray (List.cons_ne_nil _ _) rfl
    | _ => cases h

theorem holds_parenthesisedType {t : TypeExpr} (hc : Token.Ended c.tokens) (hkind : c.kind = .openParen)
    (h : parenthesisedType sub c = .ok t d) : c.Holds (.type t) d := by
  obtain ⟨wopen, h⟩ := advance_bind hc hkind (by decide) h
  obtain ⟨⟨params, variadic⟩, c₁, hparams, h⟩ := Run.bind_eq_ok.mp h
  obtain ⟨form, hform, wparams⟩ := writes_parameters (hsub.type .lowest).spelled wopen.ended hparams
  obtain ⟨colon, c₂, hcolon, h⟩ := Run.bind_eq_ok.mp h
  have wcolon := writes_eat wparams.ended (by decide) hcolon
  cases colon with
  | true =>
    obtain ⟨returns, c₃, hreturns, h⟩ := (hsub.type .unary).bind wcolon.ended h
    cases h
    have hwritten := wopen.trans (wparams.trans (wcolon.trans hreturns.writes))
    exact (by simpa using hwritten : c.Writes _ _).node (.func hform) (List.cons_ne_nil _ _) rfl
  | false =>
    rw [if_neg Bool.false_ne_true] at h
    have hwritten := wopen.trans (wparams.trans wcolon)
    -- without a return type, there is one type and no `...`
    rcases params with _ | ⟨⟨kind, inner⟩, _ | _⟩ <;> cases variadic <;> try cases h
    exact (by simpa using hwritten : c.Writes _ _).node (.typeGroup (hform.resolve_right (by simp)).2)
      (List.cons_ne_nil _ _) rfl

theorem holds_arraySuffix {element t : TypeExpr} (helement : c.Holds (.type element) d)
    (h : arraySuffix sub element d = .ok t e) : c.Holds (.type t) e := by
  obtain ⟨wopen, h⟩ := expect_bind helement.writes.ended (by decide) h
  have hbehind (size : Option Expr) {c₁ : Cursor} (wsize : d.next.Writes (size.toList.map Spelling.expr) c₁)
      (h : (expect .closeBracket >>= fun _ => do
        return TypeExpr.mk (.array element false size) (← spanFrom element.span)) c₁ = .ok t e) :
      c.Holds (.type t) e := by
    obtain ⟨wclose, h⟩ := expect_bind wsize.ended (by decide) h
    cases h
    exact (helement.writes.trans (wopen.trans (wsize.trans wclose))).node .arrayType (List.cons_ne_nil _ _)
      (helement.spanFrom _)
  obtain ⟨k, hnext, h⟩ := kind_bind h
  split at h
  · exact hbehind none (writes_nil wopen.ended) h
  · obtain ⟨size, c₁, hsize, h⟩ := Run.bind_eq_ok.mp h
    obtain ⟨position, hposition, rfl⟩ := Run.map_eq_ok.mp hsize
    exact hbehind (some position) (hsub.expr .lowest wopen.ended hposition).writes h

theorem stands_typeOperand : Stands .type (typeOperand sub) := by
  intro c t d hc h
  obtain ⟨k, hkind, h⟩ := kind_bind h
  have hpointer (hsigil : c.kind = .ampersand ∨ c.kind = .star) (h : pointerType sub false c = .ok t d) :
      c.Holds (.type t) d := by
    obtain ⟨form, hform, hne, wtarget, hspan⟩ := writes_pointerType hsub hc hsigil h
    obtain ⟨kind, span⟩ := t
    exact wtarget.node (.pointer hform) hne hspan
  split at h
  · exact stands_namedType hsub hc h
  · exact hpointer (.inl hkind) h
  · exact hpointer (.inr hkind) h
  · exact holds_constType hsub hc hkind h
  · exact holds_parenthesisedType hsub hc hkind h
  · cases h

theorem stands_type (power : Power) : Stands .type (type sub power) := by
  intro c t d hc h
  obtain ⟨operand, c₁, hoperand, h⟩ := (stands_typeOperand hsub).bind hc h
  refine iterate_induction (P := fun left d => c.Holds (.type left) d) (fun {left next d₁ d₂} hleft hround => ?_)
    hoperand h
  obtain ⟨k, -, hround⟩ := kind_bind hround
  split at hround
  · obtain ⟨t, ht, rfl⟩ := Run.map_eq_ok.mp hround
    exact holds_arraySuffix hsub hleft ht
  · cases hround
    exact hleft

/-! ## Expressions -/

theorem writes_templateArguments {args : List TypeExpr} (hc : Token.Ended c.tokens)
    (h : templateArguments sub c = .ok args d) : ∃ form, Spelling.TypeArgs args form ∧ c.Writes form d := by
  obtain ⟨k, -, h⟩ := kind_bind h
  split at h
  · obtain ⟨found, c₁, hfound, h⟩ := Run.bind_eq_ok.mp h
    cases h
    unfold speculate at hfound
    split at hfound
    · split at hfound
      · rename_i hargs _
        cases hfound
        exact writes_typeArguments hsub hc hargs
      · cases hfound
        exact ⟨[], .inl ⟨rfl, rfl⟩, writes_nil hc⟩
    · cases hfound
      exact ⟨[], .inl ⟨rfl, rfl⟩, writes_nil hc⟩
    · cases hfound
  · cases h
    exact ⟨[], .inl ⟨rfl, rfl⟩, writes_nil hc⟩

theorem writes_arguments {args : List Expr} (hc : Token.Ended c.tokens) (h : arguments sub c = .ok args d) :
    ∃ form, Spelling.Arguments args form ∧ c.Writes form d := by
  obtain ⟨wopen, h⟩ := expect_bind hc (by decide) h
  obtain ⟨inner, hinner, wargs⟩ := writes_commaList (by decide) (hsub.expr .lowest).spelled wopen.ended h
  exact ⟨_, ⟨inner, hinner, rfl⟩, wopen.trans wargs⟩

theorem writes_structFields {t : TypeExpr} {heap : Bool} {e : Expr} (hc : Token.Ended c.tokens)
    (h : structFields sub t heap c = .ok e d) :
    ∃ fields form, Spelling.Fields fields form ∧ c.Writes form d ∧
      e = .mk (.structInit t fields heap) (d.spanFrom t.span) := by
  obtain ⟨wopen, h⟩ := expect_bind hc (by decide) h
  obtain ⟨fields, c₁, hfields, h⟩ := Run.bind_eq_ok.mp h
  cases h
  have hread : ∃ inner,
      Spelling.Listed (fields.map fun field => [Spelling.name field.1, sign .colon, Spelling.expr field.2]) inner ∧
        c.next.Writes (inner ++ [sign .closeCurly]) d := by
    refine writes_commaList (by decide) (fun d₁ field d₂ hd hfield => ?_) wopen.ended hfields
    obtain ⟨name, d₃, wname, hfield⟩ := spelled_ident.bind hd hfield
    obtain ⟨wcolon, hfield⟩ := expect_bind wname.ended (by decide) hfield
    obtain ⟨value, d₄, hvalue, hfield⟩ := (hsub.expr .lowest).bind wcolon.ended hfield
    cases hfield
    exact wname.trans (wcolon.trans hvalue.writes)
  obtain ⟨inner, hinner, wfields⟩ := hread
  exact ⟨fields, _, ⟨inner, hinner, rfl⟩, wopen.trans wfields, rfl⟩

omit hsub in
theorem holds_number {e : Expr} (hc : Token.Ended c.tokens) (hkind : c.kind = .number)
    (h : number c = .ok e d) : c.Holds (.expr e) d := by
  obtain ⟨token, c₁, htoken, h⟩ := Run.bind_eq_ok.mp h
  cases htoken
  split at h
  · cases h
    exact (writes_token hc (by rw [hkind]; decide) ⟨hkind, rfl⟩).node .number (List.cons_ne_nil _ _)
      (spanFrom_next hc (by rw [hkind]; decide) _).symm
  · cases h

omit hsub in
theorem holds_leaf {node : Token → Surface.ExprKind} {p : Token → Prop} {e : Expr} (hc : Token.Ended c.tokens)
    (hkind : c.kind ≠ .eof) (hp : p c.current)
    (hform : ∀ s, Spelling.Production (.expr (.mk (node c.current) s)) [.token p] [])
    (h : leaf node c = .ok e d) : c.Holds (.expr e) d := by
  cases h
  exact (writes_token hc hkind hp).node (hform _) (List.cons_ne_nil _ _) (spanFrom_next hc hkind _).symm

theorem holds_named {e : Expr} (hc : Token.Ended c.tokens) (h : named sub c = .ok e d) :
    c.Holds (.expr e) d := by
  obtain ⟨names, c₁, hnames, h⟩ := Run.bind_eq_ok.mp h
  obtain ⟨wnames, hne, hstart, hspan⟩ := writes_path hc hnames
  obtain ⟨args, c₂, hargs, h⟩ := Run.bind_eq_ok.mp h
  obtain ⟨form, hform, wargs⟩ := writes_templateArguments hsub wnames.ended hargs
  obtain ⟨k, hkind, h⟩ := kind_bind h
  obtain ⟨_, _, hpeek, h⟩ := Run.bind_eq_ok.mp h
  cases hpeek
  split at h
  · rename_i hmacro
    have hnone : form = [] := Spelling.typeArgs_nil (List.isEmpty_iff.mp hmacro.2.2 ▸ hform)
    rw [hnone] at wargs
    obtain ⟨wnot, h⟩ := advance_bind wargs.ended (hkind.trans hmacro.1) (by decide) h
    obtain ⟨args, c₃, hcallArgs, h⟩ := Run.bind_eq_ok.mp h
    obtain ⟨inner, hinner, wcallArgs⟩ := writes_arguments hsub wnot.ended hcallArgs
    cases h
    exact (wnames.trans (wargs.trans (wnot.trans wcallArgs))).node (.macroCall hinner) (by simp [hne])
      (hstart ▸ rfl)
  · obtain ⟨_, _, hget, h⟩ := Run.bind_eq_ok.mp h
    cases hget
    split at h
    -- the type has the span of the path alone, with the template arguments behind it
    · obtain ⟨fields, form', hfields, wfields, rfl⟩ := writes_structFields hsub wargs.ended h
      have wtype := wnames.nodeBefore (.structType hform) hne hspan wargs
      exact (wtype.trans wfields).node (.structValue hfields) (List.cons_ne_nil _ _) (by rw [hspan]; rfl)
    · cases h
      exact (wnames.trans wargs).node (.path hform) (by simp [hne]) (hstart ▸ rfl)

theorem holds_prefixed {node : Expr → Surface.ExprKind} {kind : TokenKind} {e : Expr}
    (hc : Token.Ended c.tokens) (hkind : c.kind = kind) (hne : kind ≠ .eof)
    (hform : ∀ operand s, Spelling.Production (.expr (.mk (node operand) s)) [sign kind, Spelling.expr operand] [])
    (h : prefixed sub node c = .ok e d) : c.Holds (.expr e) d := by
  obtain ⟨wsigil, h⟩ := advance_bind hc hkind hne h
  obtain ⟨operand, c₁, hoperand, h⟩ := (hsub.expr .unary).bind wsigil.ended h
  cases h
  exact (wsigil.trans hoperand.writes).node (hform _ _) (List.cons_ne_nil _ _) (hoperand.upTo _)

theorem holds_reference {e : Expr} (hc : Token.Ended c.tokens) (hkind : c.kind = .ampersand)
    (h : reference sub c = .ok e d) : c.Holds (.expr e) d := by
  obtain ⟨wsigil, h⟩ := advance_bind hc hkind (by decide) h
  obtain ⟨constant, c₁, hconstant, h⟩ := Run.bind_eq_ok.mp h
  have wconst := writes_eat wsigil.ended (by decide) hconstant
  obtain ⟨target, c₂, htarget, h⟩ := (hsub.expr .unary).bind wconst.ended h
  cases h
  exact (wsigil.trans (wconst.trans htarget.writes)).node .ref (List.cons_ne_nil _ _) (htarget.upTo _)

theorem holds_parenthesised {e : Expr} (hc : Token.Ended c.tokens) (hkind : c.kind = .openParen)
    (h : parenthesised sub c = .ok e d) : c.Holds (.expr e) d := by
  obtain ⟨wopen, h⟩ := advance_bind hc hkind (by decide) h
  obtain ⟨⟨kind, span⟩, c₁, hinner, h⟩ := (hsub.expr .lowest).bind wopen.ended h
  obtain ⟨wclose, h⟩ := expect_bind hinner.writes.ended (by decide) h
  cases h
  exact (wopen.trans (hinner.writes.trans wclose)).node .group (List.cons_ne_nil _ _) rfl

/-- An array, behind the `new` if it is on the heap. -/
theorem writes_array {heap : Bool} {e : Expr} (hc : Token.Ended c.tokens) (h : array sub heap c = .ok e d) :
    ∃ form, Spelling.Allocated heap e.kind form ∧ form ≠ [] ∧ c.Writes form d ∧
      e.span = d.spanFrom c.current.span := by
  obtain ⟨wopen, h⟩ := expect_bind hc (by decide) h
  obtain ⟨k, -, h⟩ := kind_bind h
  extract_lets +onlyGivenNames behind at h
  have hbehind (size : Option Expr) {c₁ : Cursor} (wsize : c.next.Writes (size.toList.map Spelling.expr) c₁)
      (h : behind size c₁ = .ok e d) :
      ∃ form, Spelling.Allocated heap e.kind form ∧ form ≠ [] ∧ c.Writes form d ∧
        e.span = d.spanFrom c.current.span := by
    obtain ⟨wclose, h⟩ := expect_bind wsize.ended (by decide) h
    obtain ⟨element, c₂, helement, h⟩ := (hsub.type .lowest).bind wclose.ended h
    obtain ⟨wcurly, h⟩ := expect_bind helement.writes.ended (by decide) h
    have wfront := wopen.trans (wsize.trans (wclose.trans (helement.writes.trans wcurly)))
    cases size with
    | some size =>
      obtain ⟨value, c₃, hvalue, h⟩ := (hsub.expr .lowest).bind wcurly.ended h
      obtain ⟨wend, h⟩ := expect_bind hvalue.writes.ended (by decide) h
      cases h
      exact ⟨_, .arrayFill, List.cons_ne_nil _ _, wfront.trans (hvalue.writes.trans wend), rfl⟩
    | none =>
      obtain ⟨values, c₃, hvalues, h⟩ := Run.bind_eq_ok.mp h
      obtain ⟨inner, hinner, wvalues⟩ :=
        writes_commaList (by decide) (hsub.expr .lowest).spelled wcurly.ended hvalues
      cases h
      exact ⟨_, .arrayInit hinner, List.cons_ne_nil _ _, by simpa using wfront.trans wvalues, rfl⟩
  clear_value behind
  split at h
  · exact hbehind none (writes_nil wopen.ended) h
  · obtain ⟨size, c₁, hsize, h⟩ := Run.bind_eq_ok.mp h
    obtain ⟨n, hn, rfl⟩ := Run.map_eq_ok.mp hsize
    exact hbehind (some n) (hsub.expr .lowest wopen.ended hn).writes h

theorem writes_allocated {start : Span} {e : Expr} (hc : Token.Ended c.tokens)
    (h : allocated sub start c = .ok e d) : ∃ form, Spelling.Allocated true e.kind form ∧ c.Writes form d := by
  obtain ⟨k, -, h⟩ := kind_bind h
  split at h
  · obtain ⟨form, hform, -, warray, -⟩ := writes_array hsub hc h
    exact ⟨form, hform, warray⟩
  · obtain ⟨t, c₁, ht, h⟩ := (hsub.type .lowest).bind hc h
    obtain ⟨k, -, h⟩ := kind_bind h
    split at h
    · obtain ⟨fields, form, hfields, wfields, rfl⟩ := writes_structFields hsub ht.writes.ended h
      exact ⟨_, .struct hfields, ht.writes.trans wfields⟩
    · obtain ⟨wopen, h⟩ := expect_bind ht.writes.ended (by decide) h
      obtain ⟨value, c₂, hvalue, h⟩ := (hsub.expr .lowest).bind wopen.ended h
      obtain ⟨wclose, h⟩ := expect_bind hvalue.writes.ended (by decide) h
      cases h
      exact ⟨_, .value, ht.writes.trans (wopen.trans (hvalue.writes.trans wclose))⟩

theorem holds_allocation {e : Expr} (hc : Token.Ended c.tokens) (hkind : c.kind = .kwNew)
    (h : allocation sub c = .ok e d) : c.Holds (.expr e) d := by
  obtain ⟨wnew, h⟩ := advance_bind hc hkind (by decide) h
  obtain ⟨inner, c₁, hinner, h⟩ := Run.bind_eq_ok.mp h
  obtain ⟨form, hform, winner⟩ := writes_allocated hsub wnew.ended hinner
  cases h
  exact (wnew.trans winner).node (.allocation hform) (List.cons_ne_nil _ _) rfl

theorem stands_operand : Stands .expr (operand sub) := by
  intro c e d hc h
  obtain ⟨k, hkind, h⟩ := kind_bind h
  split at h
  · exact holds_number hc hkind h
  · exact holds_leaf hc (by rw [hkind]; decide) ⟨hkind, rfl⟩ (fun _ => .str) h
  · exact holds_leaf hc (by rw [hkind]; decide) hkind (fun _ => .bool) h
  · exact holds_leaf hc (by rw [hkind]; decide) hkind (fun _ => .bool) h
  · exact holds_named hsub hc h
  · exact holds_prefixed hsub hc hkind (by decide) (fun _ _ => .unary) h
  · exact holds_prefixed hsub hc hkind (by decide) (fun _ _ => .unary) h
  · exact holds_reference hsub hc hkind h
  · exact holds_prefixed hsub hc hkind (by decide) (fun _ _ => .deref) h
  · exact holds_prefixed hsub hc hkind (by decide) (fun _ _ => .share) h
  · exact holds_parenthesised hsub hc hkind h
  · obtain ⟨form, hform, hne, warray, hspan⟩ := writes_array hsub hc h
    obtain ⟨kind, span⟩ := e
    exact warray.node (.array hform) hne hspan
  · exact holds_allocation hsub hc hkind h
  · cases h

omit hsub in
/-- The token of a binary operator. -/
theorem eq_ofBinary {kind : TokenKind} {op : Surface.BinaryOp} (h : binaryOp? kind = some op) :
    kind = .ofBinary op := by
  cases kind <;> cases h <;> rfl

/-! Behind a left operand, a node has the tokens of that operand too. -/

section

variable {left e : Expr} {c₀ : Cursor} (hleft : c₀.Holds (.expr left) c)

include hleft

theorem holds_call (h : call sub left c = .ok e d) : c₀.Holds (.expr e) d := by
  obtain ⟨args, c₁, hargs, h⟩ := Run.bind_eq_ok.mp h
  obtain ⟨form, hform, wargs⟩ := writes_arguments hsub hleft.writes.ended hargs
  cases h
  exact (hleft.writes.trans wargs).node (.call hform) (List.cons_ne_nil _ _) (hleft.spanFrom _)

theorem holds_index (h : index sub left c = .ok e d) : c₀.Holds (.expr e) d := by
  obtain ⟨wopen, h⟩ := expect_bind hleft.writes.ended (by decide) h
  obtain ⟨position, c₁, hposition, h⟩ := (hsub.expr .lowest).bind wopen.ended h
  obtain ⟨wclose, h⟩ := expect_bind hposition.writes.ended (by decide) h
  cases h
  exact (hleft.writes.trans (wopen.trans (hposition.writes.trans wclose))).node .index (List.cons_ne_nil _ _)
    (hleft.spanFrom _)

omit hsub in
theorem holds_member (h : member left c = .ok e d) : c₀.Holds (.expr e) d := by
  obtain ⟨wdot, h⟩ := expect_bind hleft.writes.ended (by decide) h
  obtain ⟨name, c₁, hname, h⟩ := Run.bind_eq_ok.mp h
  obtain ⟨hkind, hspan, hnext⟩ := ident_eq_ok hname
  have wname := spelled_ident wdot.ended hname
  cases h
  refine (hleft.writes.trans (wdot.trans wname)).node .member (List.cons_ne_nil _ _) ?_
  have hlast := spanFrom_next wdot.ended (by rw [hkind]; decide) left.span
  rw [← hspan, ← hnext] at hlast
  exact hlast.symm.trans (hleft.spanFrom _)

theorem holds_binary {op : Surface.BinaryOp} (hkind : c.kind = .ofBinary op)
    (h : binary sub op left c = .ok e d) : c₀.Holds (.expr e) d := by
  obtain ⟨wop, h⟩ := advance_bind hleft.writes.ended hkind (by cases op <;> decide) h
  obtain ⟨right, c₁, hright, h⟩ := (hsub.expr _).bind wop.ended h
  cases h
  exact (hleft.writes.trans (wop.trans hright.writes)).node .binary (List.cons_ne_nil _ _)
    ((hright.upTo _).trans (hleft.spanFrom _))

theorem holds_operator {power : Power} {extend : Expr → Parse Expr}
    (hoperator : operator? sub c.kind = some (power, extend)) (h : extend left c = .ok e d) :
    c₀.Holds (.expr e) d := by
  unfold operator? at hoperator
  split at hoperator
  · cases hoperator
    exact holds_call hsub hleft h
  · cases hoperator
    exact holds_index hsub hleft h
  · cases hoperator
    exact holds_member hleft h
  · obtain ⟨op, hop, hsame⟩ := Option.map_eq_some_iff.mp hoperator
    cases hsame
    exact holds_binary hsub hleft (eq_ofBinary hop) h

end

theorem stands_expr (power : Power) : Stands .expr (expr sub power) := by
  intro c e d hc h
  obtain ⟨first, c₁, hfirst, h⟩ := (stands_operand hsub).bind hc h
  refine iterate_induction (P := fun left d => c.Holds (.expr left) d) (fun {left next d₁ d₂} hleft hround => ?_)
    hfirst h
  obtain ⟨k, hkind, hround⟩ := kind_bind hround
  cases hoperator : operator? sub k with
  | none =>
    simp only [hoperator] at hround
    cases hround
    exact hleft
  | some found =>
    obtain ⟨own, extend⟩ := found
    simp only [hoperator] at hround
    split at hround
    · obtain ⟨more, hmore, rfl⟩ := Run.map_eq_ok.mp hround
      exact holds_operator hsub hleft (hkind ▸ hoperator) hmore
    · cases hround
      exact hleft

/-! ## Statements -/

theorem spelled_typeAscription : Parse.Spelled Spelling.ascription ( typeAnnotation sub) := by
  intro c t d hc h
  obtain ⟨colon, c₁, hcolon, h⟩ := Run.bind_eq_ok.mp h
  have wcolon := writes_eat hc (by decide) hcolon
  cases colon with
  | true =>
    obtain ⟨t, ht, rfl⟩ := Run.map_eq_ok.mp h
    exact wcolon.trans (hsub.type .lowest wcolon.ended ht).writes
  | false =>
    cases h
    exact wcolon

theorem spelled_initializer : Parse.Spelled Spelling.initializer (initializer sub) := by
  intro c value d hc h
  obtain ⟨sigil, c₁, hsigil, h⟩ := Run.bind_eq_ok.mp h
  have wsigil := writes_eat hc (by decide) hsigil
  cases sigil with
  | true =>
    obtain ⟨value, hvalue, rfl⟩ := Run.map_eq_ok.mp h
    exact wsigil.trans (hsub.expr .lowest wsigil.ended hvalue).writes
  | false =>
    cases h
    exact wsigil

omit hsub in
theorem spelled_declaredName : Parse.Spelled (fun x => [Spelling.name x]) declaredName := by
  intro c x d hc h
  obtain ⟨_, _, hcurrent, h⟩ := Run.bind_eq_ok.mp h
  cases hcurrent
  split at h
  · exact spelled_ident hc h
  · cases h

omit hsub in
/-- The word that a declaration begins with. -/
theorem kind_eq_declarator (hkind : c.kind = .kwVar ∨ c.kind = .kwConst) :
    c.kind = if decide (c.current.kind = .kwConst) = true then .kwConst else .kwVar := by
  show c.current.kind = _
  rcases hkind with hkind | hkind <;> simp [show c.current.kind = _ from hkind]

theorem writes_varDecl {decl : Surface.VarDecl} (hc : Token.Ended c.tokens)
    (hkind : c.kind = .kwVar ∨ c.kind = .kwConst) (h : varDecl sub c = .ok decl d) :
    c.Writes (Spelling.varDecl decl) d := by
  obtain ⟨wword, h⟩ := advance_bind hc (kind_eq_declarator hkind) (by split <;> decide) h
  obtain ⟨name, c₁, wname, h⟩ := spelled_declaredName.bind wword.ended h
  obtain ⟨t, c₂, wtype, h⟩ := (spelled_typeAscription hsub).bind wname.ended h
  obtain ⟨value, c₃, wvalue, h⟩ := (spelled_initializer hsub).bind wtype.ended h
  split at h
  · cases h
  split at h
  · cases h
  cases h
  exact wword.trans (wname.trans (wtype.trans wvalue))

theorem holds_simpleStmt {s : Stmt} (hc : Token.Ended c.tokens) (h : simpleStmt sub c = .ok s d) :
    c.Holds (.stmt s) d ∧ Spelling.stmt s = [.node (.stmt s), sign .semicolon] := by
  obtain ⟨_, _, hcurrent, h⟩ := Run.bind_eq_ok.mp h
  cases hcurrent
  split at h
  · rename_i hkind
    obtain ⟨decl, c₁, hdecl, h⟩ := Run.bind_eq_ok.mp h
    have wdecl := writes_varDecl hsub hc hkind hdecl
    cases h
    exact ⟨wdecl.node .decl (List.cons_ne_nil _ _) rfl, rfl⟩
  obtain ⟨target, c₁, htarget, h⟩ := (hsub.expr .lowest).bind hc h
  obtain ⟨_, rfl, h⟩ := kind_bind h
  cases hop : assignmentOp? c₁.kind with
  | some op =>
    simp only [hop] at h
    obtain ⟨_, _, hsign, h⟩ := Run.bind_eq_ok.mp h
    cases hsign
    have hfilled : c₁.kind ≠ .eof := by
      intro heof
      rw [heof] at hop
      cases hop
    have wop := writes_token (p := fun t => assignmentOp? t.kind = some op) htarget.writes.ended hfilled hop
    obtain ⟨value, c₂, hvalue, h⟩ := (hsub.expr .lowest).bind wop.ended h
    cases h
    exact ⟨(htarget.writes.trans (wop.trans hvalue.writes)).node .assign (List.cons_ne_nil _ _)
      ((hvalue.upTo _).trans (htarget.spanFrom _)), rfl⟩
  | none =>
    simp only [hop] at h
    cases h
    exact ⟨htarget.writes.node .exprStmt (List.cons_ne_nil _ _) htarget.span, rfl⟩

theorem spelled_terminatedStmt : Parse.Spelled Spelling.stmt (terminatedStmt sub) := by
  intro c s d hc h
  obtain ⟨s, c₁, hs, h⟩ := Run.bind_eq_ok.mp h
  obtain ⟨hs, hform⟩ := holds_simpleStmt hsub hc hs
  obtain ⟨wsemicolon, h⟩ := expect_bind hs.writes.ended (by decide) h
  cases h
  rw [hform]
  exact hs.writes.trans wsemicolon

theorem stands_block : Stands .block (block sub) := by
  intro c b d hc h
  obtain ⟨wopen, h⟩ := expect_bind hc (by decide) h
  obtain ⟨stmts, c₁, hstmts, h⟩ := Run.bind_eq_ok.mp h
  have wstmts : c.next.Writes (stmts.flatMap Spelling.stmt) c₁ := by
    refine spelled_collect (fun d₁ next d₂ hd hnext => ?_) wopen.ended hstmts
    obtain ⟨k, -, hnext⟩ := kind_bind hnext
    split at hnext
    · cases hnext
      exact writes_nil hd
    · cases hnext
    · obtain ⟨s, hs, rfl⟩ := Run.map_eq_ok.mp hnext
      simpa using hsub.stmt hd hs
  obtain ⟨wclose, h⟩ := expect_bind wstmts.ended (by decide) h
  cases h
  exact (wopen.trans (wstmts.trans wclose)).node .block (List.cons_ne_nil _ _) rfl

theorem spelled_condition :
    Parse.Spelled (fun test => [sign .openParen, Spelling.expr test, sign .closeParen]) (condition sub) := by
  intro c test d hc h
  obtain ⟨wopen, h⟩ := expect_bind hc (by decide) h
  obtain ⟨test, c₁, htest, h⟩ := (hsub.expr .lowest).bind wopen.ended h
  obtain ⟨wclose, h⟩ := expect_bind htest.writes.ended (by decide) h
  cases h
  exact wopen.trans (htest.writes.trans wclose)

theorem spelled_branch : Parse.Spelled Spelling.branch (branch sub) := by
  intro c b d hc h
  obtain ⟨test, c₁, wtest, h⟩ := (spelled_condition hsub).bind hc h
  obtain ⟨body, c₂, hbody, h⟩ := hsub.block.bind wtest.ended h
  cases h
  exact wtest.trans hbody.writes

/-- The branches of an `if` behind the first of them. -/
theorem writes_moreBranches {first : Expr × Block} {found : List (Expr × Block) × Option Block}
    (hfirst : c.Writes (sign .kwIf :: Spelling.branch first) d) (h : moreBranches sub first d = .ok found e) :
    c.Writes (Spelling.branches found.1 ++ Spelling.otherwise found.2) e ∧ Spelling.branches found.1 ≠ [] := by
  obtain ⟨⟨reversed, last⟩, c₁, hloop, h⟩ := Run.bind_eq_ok.mp h
  cases h
  -- the branches so far, the last in front, are written from the `if` on
  have hread := iterate_induction
    (P := fun s d => ∃ rest, s.1.reverse = first :: rest ∧
      c.Writes (Spelling.branches (first :: rest) ++ Spelling.otherwise s.2) d)
    (fun {s next d₁ d₂} hs hround => ?_) ⟨[], rfl, by simpa [Spelling.branches, Spelling.otherwise] using hfirst⟩
    hloop
  · obtain ⟨rest, hrest, hwrites⟩ := hread
    simp only [hrest]
    exact ⟨hwrites, List.cons_ne_nil _ _⟩
  obtain ⟨rest, hrest, hwrites⟩ := hs
  obtain ⟨reversed, _ | last⟩ := s
  swap
  · cases hround
    exact ⟨rest, hrest, hwrites⟩
  obtain ⟨more, d₃, helse, hround⟩ := Run.bind_eq_ok.mp hround
  have welse := hwrites.trans (writes_eat hwrites.ended (by decide) helse)
  cases more with
  | false =>
    cases hround
    exact ⟨rest, hrest, by simpa using welse⟩
  | true =>
    obtain ⟨chained, d₄, hif, hround⟩ := Run.bind_eq_ok.mp hround
    have wif := welse.trans (writes_eat welse.ended (by decide) hif)
    cases chained with
    | true =>
      obtain ⟨b, d₅, wbranch, hround⟩ := (spelled_branch hsub).bind wif.ended hround
      cases hround
      refine ⟨rest ++ [b], by simp [show reversed.reverse = _ from hrest], ?_⟩
      simpa [Spelling.branches, Spelling.otherwise] using wif.trans wbranch
    | false =>
      obtain ⟨b, d₅, hblock, hround⟩ := hsub.block.bind wif.ended hround
      cases hround
      refine ⟨rest, hrest, ?_⟩
      simpa [Spelling.branches, Spelling.otherwise] using wif.trans hblock.writes

omit hsub in
theorem spelled_label : Parse.Spelled Spelling.label label := by
  intro c name d hc h
  obtain ⟨sigil, c₁, hsigil, h⟩ := Run.bind_eq_ok.mp h
  have wsigil := writes_eat hc (by decide) hsigil
  cases sigil with
  | true =>
    obtain ⟨name, hname, rfl⟩ := Run.map_eq_ok.mp h
    exact wsigil.trans (spelled_ident wsigil.ended hname)
  | false =>
    cases h
    exact wsigil

omit hsub in
theorem spelled_optionalBefore {α : Type} {close : TokenKind} {part : Parse α} {node : α → Node}
    (hpart : Stands node part) :
    Parse.Spelled (fun found => found.toList.map fun a => .node (node a)) (optionalBefore close part) := by
  intro c found d hc h
  obtain ⟨k, -, h⟩ := kind_bind h
  split at h
  · cases h
    exact writes_nil hc
  · obtain ⟨a, ha, rfl⟩ := Run.map_eq_ok.mp h
    exact (hpart hc ha).writes

theorem stands_simpleStmt : Stands .stmt (simpleStmt sub) := fun _ _ _ hc h => (holds_simpleStmt hsub hc h).1

theorem writes_ifStmt {s : Stmt} (hc : Token.Ended c.tokens) (hkind : c.kind = .kwIf)
    (h : ifStmt sub c = .ok s d) : c.Writes (Spelling.stmt s) d := by
  obtain ⟨wif, h⟩ := advance_bind hc hkind (by decide) h
  obtain ⟨first, c₁, wfirst, h⟩ := (spelled_branch hsub).bind wif.ended h
  obtain ⟨⟨branches, last⟩, c₂, hmore, h⟩ := Run.bind_eq_ok.mp h
  obtain ⟨wbranches, hne⟩ := writes_moreBranches hsub (wif.trans wfirst) hmore
  cases h
  exact (wbranches.node .cond (by simp [hne]) rfl).writes

theorem writes_whileStmt {s : Stmt} (hc : Token.Ended c.tokens) (hkind : c.kind = .kwWhile)
    (h : whileStmt sub c = .ok s d) : c.Writes (Spelling.stmt s) d := by
  obtain ⟨wwhile, h⟩ := advance_bind hc hkind (by decide) h
  obtain ⟨name, c₁, wname, h⟩ := spelled_label.bind wwhile.ended h
  obtain ⟨test, c₂, wtest, h⟩ := (spelled_condition hsub).bind wname.ended h
  obtain ⟨body, c₃, hbody, h⟩ := hsub.block.bind wtest.ended h
  cases h
  exact ((wwhile.trans (wname.trans (wtest.trans hbody.writes))).node .loop (List.cons_ne_nil _ _) rfl).writes

theorem writes_forStmt {s : Stmt} (hc : Token.Ended c.tokens) (hkind : c.kind = .kwFor)
    (h : forStmt sub c = .ok s d) : c.Writes (Spelling.stmt s) d := by
  obtain ⟨wfor, h⟩ := advance_bind hc hkind (by decide) h
  obtain ⟨name, c₁, wname, h⟩ := spelled_label.bind wfor.ended h
  obtain ⟨wopen, h⟩ := expect_bind wname.ended (by decide) h
  obtain ⟨init, c₂, winit, h⟩ := (spelled_optionalBefore (stands_simpleStmt hsub)).bind wopen.ended h
  obtain ⟨wfirst, h⟩ := expect_bind winit.ended (by decide) h
  obtain ⟨test, c₃, wtest, h⟩ := (spelled_optionalBefore (hsub.expr .lowest)).bind wfirst.ended h
  obtain ⟨wsecond, h⟩ := expect_bind wtest.ended (by decide) h
  obtain ⟨step, c₄, wstep, h⟩ := (spelled_optionalBefore (stands_simpleStmt hsub)).bind wsecond.ended h
  obtain ⟨wclose, h⟩ := expect_bind wstep.ended (by decide) h
  obtain ⟨body, c₅, hbody, h⟩ := hsub.block.bind wclose.ended h
  cases h
  have wbehind := wsecond.trans (wstep.trans (wclose.trans hbody.writes))
  have wwhole := wfor.trans (wname.trans (wopen.trans (winit.trans (wfirst.trans (wtest.trans wbehind)))))
  exact (wwhole.node .forLoop (List.cons_ne_nil _ _) rfl).writes

theorem writes_returnStmt {s : Stmt} (hc : Token.Ended c.tokens) (hkind : c.kind = .kwReturn)
    (h : returnStmt sub c = .ok s d) : c.Writes (Spelling.stmt s) d := by
  obtain ⟨wreturn, h⟩ := advance_bind hc hkind (by decide) h
  obtain ⟨value, c₁, wvalue, h⟩ := (spelled_optionalBefore (hsub.expr .lowest)).bind wreturn.ended h
  obtain ⟨wsemicolon, h⟩ := expect_bind wvalue.ended (by decide) h
  cases h
  exact ((wreturn.trans (wvalue.trans wsemicolon)).node .ret (List.cons_ne_nil _ _) rfl).writes

omit hsub in
theorem holds_jumpStmt {node : Option Ident → Surface.StmtKind} {kind : TokenKind} {s : Stmt}
    (hc : Token.Ended c.tokens) (hkind : c.kind = kind) (hne : kind ≠ .eof)
    (hform : ∀ x s, Spelling.Production (.stmt (.mk (node x) s))
      (sign kind :: (Spelling.label x ++ [sign .semicolon])) [])
    (h : jumpStmt node c = .ok s d) : ∃ x span, s = .mk (node x) span ∧ c.Holds (.stmt s) d := by
  obtain ⟨wword, h⟩ := advance_bind hc hkind hne h
  obtain ⟨name, c₁, wname, h⟩ := spelled_label.bind wword.ended h
  obtain ⟨wsemicolon, h⟩ := expect_bind wname.ended (by decide) h
  cases h
  exact ⟨name, _, rfl, (wword.trans (wname.trans wsemicolon)).node (hform _ _) (List.cons_ne_nil _ _) rfl⟩

theorem spelled_scopeStmt : Parse.Spelled Spelling.stmt (scopeStmt sub) := by
  intro c s d hc h
  obtain ⟨inner, c₁, hinner, h⟩ := hsub.block.bind hc h
  cases h
  exact (hinner.writes.node .scope (List.cons_ne_nil _ _) hinner.span).writes

theorem spelled_stmt : Parse.Spelled Spelling.stmt (stmt sub) := by
  intro c s d hc h
  obtain ⟨k, hkind, h⟩ := kind_bind h
  split at h
  · exact writes_ifStmt hsub hc hkind h
  · exact writes_whileStmt hsub hc hkind h
  · exact writes_forStmt hsub hc hkind h
  · exact spelled_scopeStmt hsub hc h
  · exact writes_returnStmt hsub hc hkind h
  · obtain ⟨x, span, rfl, hjump⟩ := holds_jumpStmt hc hkind (by decide) (fun _ _ => .brk) h
    exact hjump.writes
  · obtain ⟨x, span, rfl, hjump⟩ := holds_jumpStmt hc hkind (by decide) (fun _ _ => .cont) h
    exact hjump.writes
  · exact spelled_terminatedStmt hsub hc h

/-! ## Declarations -/

theorem spelled_fnBody : Parse.Spelled Spelling.body (fnBody sub) := by
  intro c body d hc h
  obtain ⟨semicolon, c₁, hsemicolon, h⟩ := Run.bind_eq_ok.mp h
  have wsemicolon := writes_eat hc (by decide) hsemicolon
  cases semicolon with
  | true =>
    cases h
    exact wsemicolon
  | false =>
    obtain ⟨b, hb, rfl⟩ := Run.map_eq_ok.mp h
    exact wsemicolon.trans (hsub.block wsemicolon.ended hb).writes

theorem spelled_param :
    Parse.Spelled (fun p => [Spelling.name p.name, sign .colon, Spelling.type p.type]) (param sub) := by
  intro c p d hc h
  obtain ⟨name, c₁, wname, h⟩ := spelled_ident.bind hc h
  obtain ⟨wcolon, h⟩ := expect_bind wname.ended (by decide) h
  obtain ⟨t, c₂, ht, h⟩ := (hsub.type .lowest).bind wcolon.ended h
  cases h
  exact wname.trans (wcolon.trans ht.writes)

theorem holds_fnDecl {kind : Surface.FnKind} {decl : Surface.FnDecl} (hc : Token.Ended c.tokens)
    (h : fnDecl sub kind c = .ok decl d) : c.Holds (.function decl) d ∧ decl.kind = kind := by
  obtain ⟨wfn, h⟩ := expect_bind hc (by decide) h
  obtain ⟨name, c₁, wname, h⟩ := spelled_ident.bind wfn.ended h
  obtain ⟨wopen, h⟩ := expect_bind wname.ended (by decide) h
  obtain ⟨⟨params, variadic⟩, c₂, hparams, h⟩ := Run.bind_eq_ok.mp h
  obtain ⟨form, hform, wparams⟩ := writes_parameters (spelled_param hsub) wopen.ended hparams
  obtain ⟨returns, c₃, wreturns, h⟩ := (spelled_typeAscription hsub).bind wparams.ended h
  obtain ⟨body, c₄, wbody, h⟩ := (spelled_fnBody hsub).bind wreturns.ended h
  cases h
  have wwhole := wfn.trans (wname.trans (wopen.trans (wparams.trans (wreturns.trans wbody))))
  exact ⟨(by simpa using wwhole : c.Writes _ _).node (.function hform) (List.cons_ne_nil _ _) rfl, rfl⟩

theorem writes_field {decl : Surface.VarDecl} (hc : Token.Ended c.tokens)
    (hkind : c.kind = .kwVar ∨ c.kind = .kwConst) (h : field sub c = .ok decl d) :
    c.Writes (Spelling.varDecl decl ++ [sign .semicolon]) d := by
  obtain ⟨wword, h⟩ := advance_bind hc (kind_eq_declarator hkind) (by split <;> decide) h
  obtain ⟨name, c₁, wname, h⟩ := spelled_ident.bind wword.ended h
  obtain ⟨t, c₂, wtype, h⟩ := (spelled_typeAscription hsub).bind wname.ended h
  obtain ⟨value, c₃, wvalue, h⟩ := (spelled_initializer hsub).bind wtype.ended h
  split at h
  · cases h
  obtain ⟨wsemicolon, h⟩ := expect_bind wvalue.ended (by decide) h
  cases h
  exact (wword.trans (wname.trans (wtype.trans wvalue))).trans wsemicolon

theorem spelled_structPart : Parse.Spelled Spelling.structPart (structPart sub) := by
  intro c part d hc h
  obtain ⟨k, hkind, h⟩ := kind_bind h
  obtain ⟨_, _, hpeek, h⟩ := Run.bind_eq_ok.mp h
  cases hpeek
  generalize c.peek 1 = next at h
  split at h
  · obtain ⟨decl, hdecl, rfl⟩ := Run.map_eq_ok.mp h
    obtain ⟨hdecl, hmethod⟩ := holds_fnDecl hsub hc hdecl
    simpa [Spelling.structPart, hmethod] using hdecl.writes
  · obtain ⟨wconst, h⟩ := advance_bind hc hkind (by decide) h
    obtain ⟨decl, hdecl, rfl⟩ := Run.map_eq_ok.mp h
    obtain ⟨hdecl, hmethod⟩ := holds_fnDecl hsub wconst.ended hdecl
    simpa [Spelling.structPart, hmethod] using wconst.trans hdecl.writes
  · obtain ⟨wstatic, h⟩ := advance_bind hc hkind (by decide) h
    obtain ⟨decl, hdecl, rfl⟩ := Run.map_eq_ok.mp h
    obtain ⟨hdecl, hstatic⟩ := holds_fnDecl hsub wstatic.ended hdecl
    simpa [Spelling.structPart, hstatic] using wstatic.trans hdecl.writes
  · obtain ⟨decl, hdecl, rfl⟩ := Run.map_eq_ok.mp h
    exact writes_field hsub hc (.inl hkind) hdecl
  · obtain ⟨decl, hdecl, rfl⟩ := Run.map_eq_ok.mp h
    exact writes_field hsub hc (.inr hkind) hdecl
  · cases h

theorem writes_structDecl {decl : Surface.StructDecl} (hc : Token.Ended c.tokens)
    (h : structDecl sub c = .ok decl d) :
    ∃ form, Spelling.Declaration (.struct decl) form ∧ form ≠ [] ∧ c.Writes form d := by
  obtain ⟨wstruct, h⟩ := expect_bind hc (by decide) h
  obtain ⟨name, c₁, wname, h⟩ := spelled_ident.bind wstruct.ended h
  obtain ⟨wopen, h⟩ := expect_bind wname.ended (by decide) h
  obtain ⟨parts, c₂, hparts, h⟩ := Run.bind_eq_ok.mp h
  have wparts : c₁.next.Writes (parts.flatMap Spelling.structPart) c₂ := by
    refine spelled_collect (fun d₁ next d₂ hd hnext => ?_) wopen.ended hparts
    obtain ⟨k, -, hnext⟩ := kind_bind hnext
    split at hnext
    · cases hnext
      exact writes_nil hd
    · obtain ⟨part, hpart, rfl⟩ := Run.map_eq_ok.mp hnext
      simpa using spelled_structPart hsub hd hpart
  obtain ⟨wclose, h⟩ := expect_bind wparts.ended (by decide) h
  cases h
  exact ⟨_, .struct, List.cons_ne_nil _ _, wstruct.trans (wname.trans (wopen.trans (wparts.trans wclose)))⟩

theorem spelled_macroParam : Parse.Spelled Spelling.macroParam (macroParam sub) := by
  intro c p d hc h
  obtain ⟨constant, c₁, hconstant, h⟩ := Run.bind_eq_ok.mp h
  have wconstant := writes_eat hc (by decide) hconstant
  obtain ⟨t, c₂, ht, h⟩ := (hsub.type .lowest).bind wconstant.ended h
  cases h
  exact wconstant.trans ht.writes

theorem writes_macroDecl {decl : Surface.MacroDecl} (hc : Token.Ended c.tokens)
    (h : macroDecl sub c = .ok decl d) :
    ∃ form, Spelling.Declaration (.macroDecl decl) form ∧ form ≠ [] ∧ c.Writes form d := by
  obtain ⟨wword, h⟩ := expect_bind hc (by decide) h
  obtain ⟨name, c₁, wname, h⟩ := spelled_ident.bind wword.ended h
  obtain ⟨wopen, h⟩ := expect_bind wname.ended (by decide) h
  obtain ⟨⟨params, variadic⟩, c₂, hparams, h⟩ := Run.bind_eq_ok.mp h
  obtain ⟨form, hform, wparams⟩ := writes_parameters (spelled_macroParam hsub) wopen.ended hparams
  obtain ⟨returns, c₃, wreturns, h⟩ := (spelled_typeAscription hsub).bind wparams.ended h
  obtain ⟨wsemicolon, h⟩ := expect_bind wreturns.ended (by decide) h
  cases h
  have wwhole := wword.trans (wname.trans (wopen.trans (wparams.trans (wreturns.trans wsemicolon))))
  exact ⟨_, .macroDecl hform, List.cons_ne_nil _ _, by simpa using wwhole⟩

omit hsub in
theorem writes_templateParams {names : List Ident} (hc : Token.Ended c.tokens)
    (h : templateParams c = .ok names d) : ∃ form, Spelling.Template names form ∧ c.Writes form d := by
  obtain ⟨template, c₁, htemplate, h⟩ := Run.bind_eq_ok.mp h
  have wtemplate := writes_eat hc (by decide) htemplate
  cases template with
  | true =>
    obtain ⟨wopen, h⟩ := expect_bind wtemplate.ended (by decide) h
    obtain ⟨names, c₂, hnames, h⟩ := Run.bind_eq_ok.mp h
    obtain ⟨inner, hinner, wnames⟩ := writes_commaSeparated spelled_ident wopen.ended hnames
    obtain ⟨wclose, h⟩ := expect_bind wnames.ended (by decide) h
    cases h
    exact ⟨_, .inr ⟨inner, hinner, rfl⟩, wtemplate.trans (wopen.trans (wnames.trans wclose))⟩
  | false =>
    cases h
    exact ⟨[], .inl ⟨rfl, rfl⟩, wtemplate⟩

theorem writes_itemKind {kind : Surface.ItemKind} (hc : Token.Ended c.tokens)
    (h : itemKind sub c = .ok kind d) :
    ∃ form, Spelling.Declaration kind form ∧ form ≠ [] ∧ c.Writes form d := by
  have hglobal (hkind : c.kind = .kwVar ∨ c.kind = .kwConst)
      (h : (do let decl ← varDecl sub; let _ ← expect .semicolon; return Surface.ItemKind.global decl) c =
        .ok kind d) : ∃ form, Spelling.Declaration kind form ∧ form ≠ [] ∧ c.Writes form d := by
    obtain ⟨decl, c₁, hdecl, h⟩ := Run.bind_eq_ok.mp h
    have wdecl := writes_varDecl hsub hc hkind hdecl
    obtain ⟨wsemicolon, h⟩ := expect_bind wdecl.ended (by decide) h
    cases h
    exact ⟨_, .global, List.cons_ne_nil _ _, wdecl.trans wsemicolon⟩
  obtain ⟨k, hkind, h⟩ := kind_bind h
  split at h
  · obtain ⟨decl, hdecl, rfl⟩ := Run.map_eq_ok.mp h
    exact ⟨_, .function, List.cons_ne_nil _ _, (holds_fnDecl hsub hc hdecl).1.writes⟩
  · obtain ⟨decl, hdecl, rfl⟩ := Run.map_eq_ok.mp h
    exact writes_structDecl hsub hc hdecl
  · exact hglobal (.inl hkind) h
  · exact hglobal (.inr hkind) h
  · obtain ⟨wword, h⟩ := advance_bind hc hkind (by decide) h
    obtain ⟨name, c₁, wname, h⟩ := spelled_ident.bind wword.ended h
    obtain ⟨wsign, h⟩ := expect_bind wname.ended (by decide) h
    obtain ⟨t, c₂, ht, h⟩ := (hsub.type .lowest).bind wsign.ended h
    obtain ⟨wsemicolon, h⟩ := expect_bind ht.writes.ended (by decide) h
    cases h
    exact ⟨_, .typeAlias, List.cons_ne_nil _ _,
      wword.trans (wname.trans (wsign.trans (ht.writes.trans wsemicolon)))⟩
  · obtain ⟨decl, hdecl, rfl⟩ := Run.map_eq_ok.mp h
    exact writes_macroDecl hsub hc hdecl
  · cases h

theorem stands_item : Stands .item (item sub) := by
  intro c i d hc h
  obtain ⟨_, _, hcurrent, h⟩ := Run.bind_eq_ok.mp h
  cases hcurrent
  obtain ⟨names, c₁, hnames, h⟩ := Run.bind_eq_ok.mp h
  obtain ⟨template, htemplate, wtemplate⟩ := writes_templateParams hc hnames
  obtain ⟨kind, c₂, hkind, h⟩ := Run.bind_eq_ok.mp h
  obtain ⟨form, hform, hne, wkind⟩ := writes_itemKind hsub wtemplate.ended hkind
  obtain ⟨_, _, hspan, h⟩ := Run.bind_eq_ok.mp h
  cases hspan
  split at h
  · cases h
  · cases h
    exact (wtemplate.trans wkind).node (.item htemplate hform) (by simp [hne]) rfl

/-! ## The whole grammar -/

theorem spelled_step : Spelled (step sub) where
  expr := stands_expr hsub
  type := stands_type hsub
  stmt := spelled_stmt hsub
  block := stands_block hsub

omit hsub in
theorem spelled_rulesTo (n : Nat) : Spelled (rulesTo n) := by
  induction n with
  | zero =>
    have hnone {α : Type} {W : α → Cursor → Cursor → Prop} (c : Cursor) (a : α) (d : Cursor)
        (_ : Token.Ended c.tokens) (h : (Run.stop .depth : Parse α) c = .ok a d) : W a c d := by cases h
    exact ⟨fun _ => hnone, fun _ => hnone, hnone, hnone⟩
  | succ n ih => exact spelled_step ih

omit hsub in
theorem spelled_rule : Spelled rule where
  expr power c _ _ hc h := (spelled_rulesTo (depthFor c.remaining)).expr power hc h
  type power c _ _ hc h := (spelled_rulesTo (depthFor c.remaining)).type power hc h
  stmt c _ _ hc h := (spelled_rulesTo (depthFor c.remaining)).stmt hc h
  block c _ _ hc h := (spelled_rulesTo (depthFor c.remaining)).block hc h

/-- The declarations of a file, behind its package and imports. -/
theorem writes_file {name : String} {m : Surface.Module} (hc : Token.Ended c.tokens)
    (h : file sub name c = .ok m d) : ∃ c₁, c.Leads c₁ ∧ c₁.Writes (m.items.map fun i => .node (.item i)) d := by
  obtain ⟨package, c₁, hpackage, h⟩ := Run.bind_eq_ok.mp h
  obtain ⟨imports, c₂, himports, h⟩ := Run.bind_eq_ok.mp h
  have hleads : c.Leads c₂ := (Moves.moves hpackage).trans (Moves.moves himports)
  obtain ⟨items, c₃, hitems, h⟩ := Run.bind_eq_ok.mp h
  have witems : c₂.Writes (items.flatMap fun i => [.node (.item i)]) c₃ := by
    refine spelled_collect (fun d₁ next d₂ hd hnext => ?_) (hleads.ended hc) hitems
    obtain ⟨_, _, hget, hnext⟩ := Run.bind_eq_ok.mp hnext
    cases hget
    split at hnext
    · obtain ⟨i, hi, rfl⟩ := Run.map_eq_ok.mp hnext
      exact (stands_item hsub hd hi).writes
    · cases hnext
      exact writes_nil hd
  cases h
  exact ⟨c₂, hleads, by simpa [← List.map_eq_flatMap] using witems⟩

end Grammar

end OwnLang
