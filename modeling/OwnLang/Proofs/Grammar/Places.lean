import Mathlib
import OwnLang.Proofs.Grammar.Words
import OwnLang.Proofs.Token.Tiling

/-!
# Where nodes stand in a text

The tokens of a text stand one behind the other (`inOrder_tokenize`), and moving on goes ahead in the
text (`Cursor.Leads.le`). A node has the span of the tokens that it was read from (`Cursor.Between`), and
nodes that are read one after the other stand in a row (`Cursor.Row`).
-/

namespace OwnLang

/-! ## Spans -/

namespace Span

/-- The span behind its first byte. -/
def tail (s : Span) : Span := { s with start := s.start + 1 }

/-- The parts stand one behind the other in a span. -/
structure Ordered (around : Span) (parts : List Span) : Prop where
  inside : ∀ p ∈ parts, p.Within around
  apart : parts.Pairwise fun p q => p.stop ≤ q.start

variable {s t u : Span} {parts : List Span}

theorem Within.refl (s : Span) : s.Within s := ⟨rfl, le_rfl, le_rfl⟩

theorem Within.trans (h : s.Within t) (h' : t.Within u) : s.Within u :=
  ⟨h.1.trans h'.1, h'.2.1.trans h.2.1, h.2.2.trans h'.2.2⟩

theorem Within.tail (h : s.Within t) : s.tail.Within t.tail := ⟨h.1, Nat.succ_le_succ h.2.1, h.2.2⟩

theorem tail_within (s : Span) : s.tail.Within s := ⟨rfl, Nat.le_succ _, le_rfl⟩

theorem ordered_nil (s : Span) : s.Ordered [] := ⟨List.forall_mem_nil _, .nil⟩

theorem Ordered.mono (h : s.Ordered parts) (hst : s.Within t) : t.Ordered parts :=
  ⟨fun p hp => (h.inside p hp).trans hst, h.apart⟩

/-- What stands behind the first of some parts. -/
theorem Ordered.behind (h : s.Ordered (t :: parts)) : Span.Ordered { s with start := t.stop } parts where
  inside q hq := by
    have hin := h.inside q (List.mem_cons_of_mem _ hq)
    exact ⟨hin.1, (List.pairwise_cons.mp h.apart).1 q hq, hin.2.2⟩
  apart := (List.pairwise_cons.mp h.apart).2

end Span

/-! ## Tokens and cursors -/

/-- Tokens stand one behind the other in a file, with an `eof` at the end. -/
structure Token.InOrder (file : String) (tokens : List Token) : Prop where
  file : ∀ t ∈ tokens, t.span.file = file
  forward : ∀ t ∈ tokens, t.span.start ≤ t.span.stop
  nonempty : ∀ t ∈ tokens, t.kind ≠ .eof → t.span.start < t.span.stop
  apart : tokens.Pairwise fun a b => a.span.stop ≤ b.span.start
  ending : ∃ front last, tokens = front ++ [last] ∧ last.kind = .eof

/-- The tokens of a text stand one behind the other. -/
theorem inOrder_tokenize {text file : String} {tokens : List Token}
    (h : tokenize text file = .ok tokens) : Token.InOrder file tokens := by
  obtain ⟨found, rfl, htiles⟩ := (tokenize_tiles text file).1 tokens h
  have hlast {p : Token → Prop} (hfound : ∀ t ∈ found, p t)
      (hend : p ⟨.eof, "EOF", file, text.utf8ByteSize, text.utf8ByteSize⟩) :
      ∀ t ∈ found ++ [⟨.eof, "EOF", file, text.utf8ByteSize, text.utf8ByteSize⟩], p t :=
    fun t ht => (List.mem_append.mp ht).elim (hfound t) fun ht => List.mem_singleton.mp ht ▸ hend
  refine ⟨hlast (fun t ht => (htiles.nonempty ht).1) rfl, hlast (fun t ht => (htiles.nonempty ht).2.le) le_rfl,
    hlast (fun t ht _ => (htiles.nonempty ht).2) fun hkind => absurd rfl hkind, ?_, _, _, rfl, rfl⟩
  refine List.pairwise_append.mpr ⟨htiles.ordered, List.pairwise_singleton _ _, fun t ht last hend => ?_⟩
  rw [List.mem_singleton.mp hend, ← byteWidth_toList]
  exact htiles.stop_le ht

namespace Cursor

variable {file : String} {c c' d d' : Cursor} {s t : Span}

theorem previousEnd_le (hc : Token.InOrder file c.tokens) : c.previousEnd ≤ c.start := by
  obtain ⟨_ | ⟨t, before⟩, current, after⟩ := c
  · exact Nat.zero_le _
  · refine (List.pairwise_append.mp hc.apart).2.2 t ?_ current List.mem_cons_self
    simp

/-- Only the last token is left as it is. -/
theorem previousEnd_next (hc : Token.InOrder file c.tokens) (hkind : c.kind ≠ .eof) :
    c.next.previousEnd = c.current.span.stop := by
  obtain ⟨before, current, _ | ⟨t, after⟩⟩ := c
  · obtain ⟨front, last, htokens, hlast⟩ := hc.ending
    obtain ⟨-, hsame⟩ := List.append_inj' htokens rfl
    cases hsame
    exact absurd hlast hkind
  · rfl

/-- Moving on goes ahead in the text. -/
theorem next_le (hc : Token.InOrder file c.tokens) :
    c.start ≤ c.next.start ∧ c.previousEnd ≤ c.next.previousEnd := by
  have hprevious := previousEnd_le hc
  have hforward := hc.forward _ c.current_mem
  have hnext := previousEnd_le ((tokens_next c).symm ▸ hc)
  obtain ⟨before, current, _ | ⟨t, after⟩⟩ := c
  · exact ⟨le_rfl, le_rfl⟩
  · simp only [previousEnd, next, start] at *
    omega

theorem Leads.le (h : c.Leads d) (hc : Token.InOrder file c.tokens) :
    c.start ≤ d.start ∧ c.previousEnd ≤ d.previousEnd := by
  induction h with
  | refl => exact ⟨le_rfl, le_rfl⟩
  | tail hstep hnext ih =>
    subst hnext
    have hle := next_le (Leads.tokens hstep ▸ hc)
    exact ⟨ih.1.trans hle.1, ih.2.trans hle.2⟩

theorem Leads.inOrder (h : c.Leads d) (hc : Token.InOrder file c.tokens) : Token.InOrder file d.tokens :=
  h.tokens.symm ▸ hc

/-- A span that begins with a token behind `c` and ends with one in front of `d`. -/
structure Between (file : String) (c d : Cursor) (s : Span) : Prop where
  file : s.file = file
  start : c.start ≤ s.start
  nonempty : s.start < s.stop
  stop : s.stop ≤ d.previousEnd

theorem Between.mono (h : Between file c d s) (hstart : c'.start ≤ c.start)
    (hstop : d.previousEnd ≤ d'.previousEnd) : Between file c' d' s :=
  ⟨h.file, hstart.trans h.start, h.nonempty, h.stop.trans hstop⟩

/-- The span of a token that is taken. -/
theorem between_token (hc : Token.InOrder file c.tokens) (hkind : c.kind ≠ .eof) :
    Between file c c.next c.current.span :=
  ⟨hc.file _ c.current_mem, le_rfl, hc.nonempty _ c.current_mem hkind, (previousEnd_next hc hkind).ge⟩

/-- From where a span starts, up to the last token that is taken. -/
theorem Between.spanFrom (h : Between file c d s) (hd : d.previousEnd ≤ d'.previousEnd) :
    Between file c d' (d'.spanFrom s) :=
  ⟨h.file, h.start, h.nonempty.trans_le (h.stop.trans hd), le_rfl⟩

/-- From the start of a span to the end of another one behind it. -/
theorem Between.upTo (h : Between file c d s) (hd : Token.InOrder file d.tokens)
    (ht : Between file d d' t) : Between file c d' (s.upTo t) := by
  have hprevious := previousEnd_le hd
  have hstop := h.stop
  have hnonempty := h.nonempty
  have hstart := ht.start
  refine ⟨h.file, h.start, ?_, ht.stop⟩
  show s.start < t.stop
  exact lt_trans (by omega) ht.nonempty

end Cursor

/-- Spans of tokens in front of `c` and behind `start`, one behind the other. -/
structure Cursor.Row (file : String) (start : Nat) (c : Cursor) (parts : List Span) : Prop where
  tokens : Token.InOrder file c.tokens
  start_le : start ≤ c.previousEnd
  ordered : Span.Ordered ⟨file, start, c.previousEnd⟩ parts

namespace Cursor.Row

variable {file : String} {start : Nat} {c d : Cursor} {parts : List Span}

theorem leads (h : Row file start c parts) (hcd : c.Leads d) : Row file start d parts where
  tokens := hcd.inOrder h.tokens
  start_le := h.start_le.trans (hcd.le h.tokens).2
  ordered := h.ordered.mono ⟨rfl, le_rfl, (hcd.le h.tokens).2⟩

/-- One more part behind the others. -/
theorem concat {s : Span} (h : Row file start c parts) (hcd : c.Leads d) (hs : Between file c d s) :
    Row file start d (parts ++ [s]) := by
  have hbehind := (previousEnd_le h.tokens).trans hs.start
  have hmore := h.leads hcd
  refine ⟨hmore.tokens, hmore.start_le, fun p hp => ?_, ?_⟩
  · rcases List.mem_append.mp hp with hp | hp
    · exact hmore.ordered.inside p hp
    · rw [List.mem_singleton.mp hp]
      exact ⟨hs.file, h.start_le.trans hbehind, hs.stop⟩
  · refine List.pairwise_append.mpr ⟨h.ordered.apart, List.pairwise_singleton _ _, fun p hp q hq => ?_⟩
    rw [List.mem_singleton.mp hq]
    exact (h.ordered.inside p hp).2.2.trans hbehind

/-- A row that begins behind the start of a token. -/
theorem opened (hc : Token.InOrder file c.tokens) (hkind : c.kind ≠ .eof) (hstart : start ≤ c.start + 1) :
    Row file start c.next [] where
  tokens := (leads_next c).inOrder hc
  start_le := by
    rw [previousEnd_next hc hkind]
    exact hstart.trans (hc.nonempty _ c.current_mem hkind)
  ordered := Span.ordered_nil _

end Cursor.Row

/-! ## Readers -/

namespace Parse

variable {α β : Type} {c d : Cursor}

/-- What is kept by every round of a repetition is true where it ends. -/
theorem iterate_induction {step : α → Parse (Option α)} {P : α → Cursor → Prop}
    (hstep : ∀ {a next c d}, P a c → step a c = .ok next d → P (next.getD a) d) {a b : α} (ha : P a c)
    (h : iterate step a c = .ok b d) : P b d := by
  obtain ⟨_, _, hget, hrun⟩ := Run.bind_eq_ok.mp h
  cases hget
  clear h
  generalize c.remaining + 2 = n at hrun
  induction n generalizing a c with
  | zero => cases hrun
  | succ n ih =>
    obtain ⟨next, c₁, hnext, hrest⟩ := Run.bind_eq_ok.mp hrun
    have hkept := hstep ha hnext
    cases next with
    | none =>
      cases hrest
      exact hkept
    | some a' => exact ih hkept hrest

/-- What is kept by every item that is read is true of all of them. -/
theorem collect_induction {item : Parse (Option α)} {P : List α → Cursor → Prop}
    (hitem : ∀ {l next c d}, P l c → item c = .ok next d → P (l ++ next.toList) d) {l : List α}
    (hnil : P [] c) (h : collect item c = .ok l d) : P l d := by
  obtain ⟨reversed, c₁, hreversed, h⟩ := Run.bind_eq_ok.mp h
  cases h
  refine iterate_induction (P := fun l c => P l.reverse c) (fun hl hread => ?_) hnil hreversed
  obtain ⟨next, _, hnext, hread⟩ := Run.bind_eq_ok.mp hread
  cases hread
  have hkept := hitem hl hnext
  cases next with
  | none => simpa using hkept
  | some a => simpa using hkept

theorem expect_eq_ok {kind : TokenKind} {token : Token} (h : expect kind c = .ok token d) :
    c.kind = kind ∧ token = c.current ∧ d = c.next := by
  unfold expect at h
  split at h
  · cases h
    exact ⟨‹_›, rfl, rfl⟩
  · cases h

theorem kind_eq_ok {k : TokenKind} (h : kind c = .ok k d) : c.kind = k ∧ d = c := by
  cases h
  exact ⟨rfl, rfl⟩

theorem ident_eq_ok {name : Surface.Ident} (h : ident c = .ok name d) :
    c.kind = .identifier ∧ name.span = c.current.span ∧ d = c.next := by
  obtain ⟨token, _, htoken, h⟩ := Run.bind_eq_ok.mp h
  obtain ⟨hkind, rfl, rfl⟩ := expect_eq_ok htoken
  cases h
  exact ⟨hkind, rfl, rfl⟩

/-- A reader that moves on, and gives what it reads the span from `start` to the last token taken. -/
def Closes (start : Span) (span : α → Span) (x : Parse α) : Prop :=
  ∀ ⦃c a d⦄, x c = .ok a d → c.Leads d ∧ span a = d.spanFrom start

section

variable {start : Span} {span : α → Span}

theorem closes_bind {x : Parse β} {f : β → Parse α} [hx : Moves x] (h : ∀ b, Closes start span (f b)) :
    Closes start span (x >>= f) := by
  intro c a d hrun
  obtain ⟨b, e, hstep, hrest⟩ := Run.bind_eq_ok.mp hrun
  obtain ⟨hleads, hspan⟩ := h b hrest
  exact ⟨(hx.moves hstep).trans hleads, hspan⟩

theorem closes_spanFrom {f : Span → α} (h : ∀ s, span (f s) = s) :
    Closes start span (spanFrom start >>= fun s => pure (f s)) := by
  intro c a d hrun
  cases hrun
  exact ⟨.refl, h _⟩

variable {file : String} {a : α}

/-- A node that goes on from another one, up to the last token. -/
theorem between_behind {x : Parse α} {c₀ : Cursor} (h : x c = .ok a d)
    (hc : Token.InOrder file c.tokens) (hstart : Cursor.Between file c₀ c start)
    (hx : Closes start span x) : Cursor.Between file c₀ d (span a) := by
  obtain ⟨hleads, hspan⟩ := hx h
  rw [hspan]
  exact hstart.spanFrom (hleads.le hc).2

/-- A node from its first token up to the last one. -/
theorem between_advance {f : Token → Parse α} (h : (advance >>= f) c = .ok a d)
    (hc : Token.InOrder file c.tokens) (hkind : c.kind ≠ .eof)
    (hf : ∀ t, Closes t.span span (f t)) : Cursor.Between file c d (span a) := by
  obtain ⟨_, _, hadvance, hrest⟩ := Run.bind_eq_ok.mp h
  cases hadvance
  exact between_behind hrest ((Cursor.leads_next c).inOrder hc) (Cursor.between_token hc hkind) (hf _)

theorem between_expect {f : Token → Parse α} {kind : TokenKind} (h : (expect kind >>= f) c = .ok a d)
    (hc : Token.InOrder file c.tokens) (hkind : kind ≠ .eof)
    (hf : ∀ t, Closes t.span span (f t)) : Cursor.Between file c d (span a) := by
  obtain ⟨_, _, hexpect, hrest⟩ := Run.bind_eq_ok.mp h
  obtain ⟨rfl, rfl, rfl⟩ := expect_eq_ok hexpect
  exact between_behind hrest ((Cursor.leads_next c).inOrder hc) (Cursor.between_token hc hkind) (hf _)

end

end Parse

/-! ## Expressions -/

namespace Grammar

open Parse Cursor
open Surface (Expr)

/-- Expressions that are read stand where their tokens are. -/
def PlacesExprs (file : String) (sub : Readers) : Prop :=
  ∀ ⦃power c e d⦄, sub (.expr power) c = .ok e d → Token.InOrder file c.tokens → Between file c d e.span

section

variable {file : String} {sub : Readers} {c c₀ d : Cursor} {e : Expr}

theorem between_number (h : number c = .ok e d) (hc : Token.InOrder file c.tokens)
    (hkind : c.kind ≠ .eof) : Between file c d e.span := by
  obtain ⟨token, c₁, hadvance, h⟩ := Run.bind_eq_ok.mp h
  cases hadvance
  split at h
  · cases h
    exact between_token hc hkind
  · cases h

theorem between_leaf {node : Token → Surface.ExprKind} (h : leaf node c = .ok e d)
    (hc : Token.InOrder file c.tokens) (hkind : c.kind ≠ .eof) : Between file c d e.span := by
  cases h
  exact between_token hc hkind

theorem path_eq_ok {names : List Surface.Ident} (h : path c = .ok names d) :
    c.kind = .identifier ∧ c.next.Leads d ∧ pathStart names = c.current.span ∧
      ∀ e : Cursor, e.spanFrom (Surface.Ident.pathSpan names) = e.spanFrom c.current.span := by
  obtain ⟨first, c₁, hfirst, h⟩ := Run.bind_eq_ok.mp h
  obtain ⟨hkind, hspan, rfl⟩ := ident_eq_ok hfirst
  obtain ⟨rest, c₂, hrest, h⟩ := Run.bind_eq_ok.mp h
  cases h
  refine ⟨hkind, Moves.moves hrest, hspan, fun e => ?_⟩
  rw [← hspan]
  rfl

variable [hsub : ∀ rule, Moves (sub rule)]

theorem closes_structFields (type : Surface.TypeExpr) (heap : Bool) :
    Closes type.span Expr.span (structFields sub type heap) :=
  closes_bind fun _ => closes_bind fun _ => closes_spanFrom fun _ => rfl

theorem between_named (h : named sub c = .ok e d) (hc : Token.InOrder file c.tokens) :
    Between file c d e.span := by
  obtain ⟨names, c₁, hpath, hrest⟩ := Run.bind_eq_ok.mp h
  obtain ⟨hkind, hleads, hstart, hfields⟩ := path_eq_ok hpath
  have hopened : Between file c c₁ c.current.span :=
    (between_token hc (by rw [hkind]; decide)).mono le_rfl (hleads.le ((leads_next c).inOrder hc)).2
  refine between_behind hrest ((Moves.moves hpath).inOrder hc) hopened ?_
  rw [← hstart] at hfields ⊢
  refine closes_bind fun args => closes_bind fun kind => closes_bind fun next => ?_
  split
  · exact closes_bind fun _ => closes_bind fun _ => closes_spanFrom fun _ => rfl
  · refine closes_bind fun c₂ => ?_
    split
    · intro c₃ e' d' hrun
      obtain ⟨hleads, hspan⟩ := closes_structFields _ _ hrun
      exact ⟨hleads, hspan.trans (hfields d')⟩
    · exact closes_spanFrom fun _ => rfl

theorem between_array {heap : Bool} (h : array sub heap c = .ok e d)
    (hc : Token.InOrder file c.tokens) : Between file c d e.span := by
  refine between_expect h hc (by decide) fun start => closes_bind fun kind => ?_
  extract_lets +onlyGivenNames behind
  have hbehind (size : Option Expr) : Closes start.span Expr.span (behind size) := by
    refine closes_bind fun _ => closes_bind fun element => closes_bind fun _ => ?_
    cases size with
    | none => exact closes_bind fun _ => closes_spanFrom fun _ => rfl
    | some size => exact closes_bind fun _ => closes_bind fun _ => closes_spanFrom fun _ => rfl
  split
  · exact closes_bind fun size => hbehind size
  · exact closes_bind fun size => hbehind size

theorem between_parenthesised (h : parenthesised sub c = .ok e d) (hc : Token.InOrder file c.tokens)
    (hkind : c.kind ≠ .eof) : Between file c d e.span :=
  between_advance h hc hkind fun _ => closes_bind fun _ => closes_bind fun _ =>
    closes_spanFrom fun _ => rfl

theorem between_allocation (h : allocation sub c = .ok e d) (hc : Token.InOrder file c.tokens)
    (hkind : c.kind ≠ .eof) : Between file c d e.span :=
  between_advance h hc hkind fun _ => closes_bind fun _ => closes_spanFrom fun _ => rfl

theorem between_call {callee : Expr} (h : call sub callee c = .ok e d)
    (hc : Token.InOrder file c.tokens) (hcallee : Between file c₀ c callee.span) :
    Between file c₀ d e.span :=
  between_behind h hc hcallee (closes_bind fun _ => closes_spanFrom fun _ => rfl)

theorem between_index {base : Expr} (h : index sub base c = .ok e d) (hc : Token.InOrder file c.tokens)
    (hbase : Between file c₀ c base.span) : Between file c₀ d e.span :=
  between_behind h hc hbase
    (closes_bind fun _ => closes_bind fun _ => closes_bind fun _ => closes_spanFrom fun _ => rfl)

omit hsub in
theorem between_member {base : Expr} (h : member base c = .ok e d) (hc : Token.InOrder file c.tokens)
    (hbase : Between file c₀ c base.span) : Between file c₀ d e.span := by
  obtain ⟨_, c₁, hdot, h⟩ := Run.bind_eq_ok.mp h
  obtain ⟨-, -, rfl⟩ := expect_eq_ok hdot
  obtain ⟨name, c₂, hname, h⟩ := Run.bind_eq_ok.mp h
  obtain ⟨hkind, hspan, rfl⟩ := ident_eq_ok hname
  cases h
  have hnext := (leads_next c).inOrder hc
  refine (hbase.mono le_rfl (next_le hc).2).upTo hnext ?_
  rw [hspan]
  exact between_token hnext (by rw [hkind]; decide)

variable (hp : PlacesExprs file sub)

include hp

omit hsub in
theorem between_prefixed {node : Expr → Surface.ExprKind} (h : prefixed sub node c = .ok e d)
    (hc : Token.InOrder file c.tokens) (hkind : c.kind ≠ .eof) : Between file c d e.span := by
  obtain ⟨_, _, hadvance, h⟩ := Run.bind_eq_ok.mp h
  cases hadvance
  obtain ⟨operand, c₁, hoperand, h⟩ := Run.bind_eq_ok.mp h
  cases h
  have hnext := (leads_next c).inOrder hc
  exact (between_token hc hkind).upTo hnext (hp hoperand hnext)

omit hsub in
theorem between_reference (h : reference sub c = .ok e d) (hc : Token.InOrder file c.tokens)
    (hkind : c.kind ≠ .eof) : Between file c d e.span := by
  obtain ⟨_, _, hadvance, h⟩ := Run.bind_eq_ok.mp h
  cases hadvance
  obtain ⟨constant, c₁, hconstant, h⟩ := Run.bind_eq_ok.mp h
  obtain ⟨target, c₂, htarget, h⟩ := Run.bind_eq_ok.mp h
  cases h
  have hnext := (leads_next c).inOrder hc
  have hleads := Moves.moves hconstant
  exact ((between_token hc hkind).mono le_rfl (hleads.le hnext).2).upTo (hleads.inOrder hnext)
    (hp htarget (hleads.inOrder hnext))

omit hsub in
theorem between_binary {op : Surface.BinaryOp} {left : Expr} (h : binary sub op left c = .ok e d)
    (hc : Token.InOrder file c.tokens) (hleft : Between file c₀ c left.span) :
    Between file c₀ d e.span := by
  obtain ⟨_, _, hadvance, h⟩ := Run.bind_eq_ok.mp h
  cases hadvance
  obtain ⟨right, c₁, hright, h⟩ := Run.bind_eq_ok.mp h
  cases h
  have hnext := (leads_next c).inOrder hc
  exact (hleft.mono le_rfl (next_le hc).2).upTo hnext (hp hright hnext)

theorem between_operand (h : operand sub c = .ok e d) (hc : Token.InOrder file c.tokens) :
    Between file c d e.span := by
  obtain ⟨kind, c₁, hread, hrest⟩ := Run.bind_eq_ok.mp h
  obtain ⟨hkind, rfl⟩ := kind_eq_ok hread
  have hfilled (hne : kind ≠ .eof) : c₁.kind ≠ .eof := hkind ▸ hne
  split at hrest
  · exact between_number hrest hc (hfilled (by decide))
  · exact between_leaf hrest hc (hfilled (by decide))
  · exact between_leaf hrest hc (hfilled (by decide))
  · exact between_leaf hrest hc (hfilled (by decide))
  · exact between_named hrest hc
  · exact between_prefixed hp hrest hc (hfilled (by decide))
  · exact between_prefixed hp hrest hc (hfilled (by decide))
  · exact between_reference hp hrest hc (hfilled (by decide))
  · exact between_prefixed hp hrest hc (hfilled (by decide))
  · exact between_prefixed hp hrest hc (hfilled (by decide))
  · exact between_parenthesised hrest hc (hfilled (by decide))
  · exact between_array hrest hc
  · exact between_allocation hrest hc (hfilled (by decide))
  · cases hrest

theorem between_operator {kind : TokenKind} {power : Power} {extend : Expr → Parse Expr} {left : Expr}
    (hoperator : operator? sub kind = some (power, extend)) (h : extend left c = .ok e d)
    (hc : Token.InOrder file c.tokens) (hleft : Between file c₀ c left.span) :
    Between file c₀ d e.span := by
  unfold operator? at hoperator
  split at hoperator
  · cases hoperator
    exact between_call h hc hleft
  · cases hoperator
    exact between_index h hc hleft
  · cases hoperator
    exact between_member h hc hleft
  · obtain ⟨op, -, hop⟩ := Option.map_eq_some_iff.mp hoperator
    cases hop
    exact between_binary hp h hc hleft

/-- An expression stands where its tokens are. -/
theorem between_expr {power : Power} (h : expr sub power c = .ok e d) (hc : Token.InOrder file c.tokens) :
    Between file c d e.span := by
  obtain ⟨first, c₁, hfirst, hrest⟩ := Run.bind_eq_ok.mp h
  have hstart : Token.InOrder file c₁.tokens ∧ Between file c c₁ first.span :=
    ⟨(Moves.moves hfirst).inOrder hc, between_operand hp hfirst hc⟩
  refine (iterate_induction
    (P := fun left c₂ => Token.InOrder file c₂.tokens ∧ Between file c c₂ left.span)
    (fun {left next c₂ d₂} hleft hround => ?_) hstart hrest).2
  obtain ⟨kind, c₃, hread, hextend⟩ := Run.bind_eq_ok.mp hround
  obtain ⟨-, rfl⟩ := kind_eq_ok hread
  cases hoperator : operator? sub kind with
  | none =>
    simp only [hoperator] at hextend
    cases hextend
    exact hleft
  | some found =>
    obtain ⟨own, extend⟩ := found
    simp only [hoperator] at hextend
    split at hextend
    · obtain ⟨more, hmore, rfl⟩ := Run.map_eq_ok.mp hextend
      have := moves_operator? sub hoperator left
      exact ⟨(Moves.moves hmore).inOrder hleft.1, between_operator hp hoperator hmore hleft.1 hleft.2⟩
    · cases hextend
      exact hleft

end

end Grammar

end OwnLang
