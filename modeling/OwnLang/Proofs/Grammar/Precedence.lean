import OwnLang.Proofs.Grammar.ReadsStmt
import OwnLang.Proofs.Grammar.Words

/-!
# How operators group

A text of numbers, with signs in front of them, suffixes behind them and binary operators between them,
is read as the one tree that its operators call for (`expr_grouped`). `OperatorTree.Grouped` says which
tree that is, by the levels of its operators alone; that there is just one (`grouped_unique`) has nothing
to do with how it is read.

The reader goes along the left edge of a tree: its first operand, and then, from the inside out, every
operator on that edge with its right operand. Each of these is a piece that one round of the loop in
`Grammar.expr` takes (`Links`), and a right operand is a smaller tree, read at its operator's power.
-/

namespace OwnLang

open Surface
open TokenKind (sign)

/-! ## Operands -/

/-- How tightly a binary operator binds. -/
def Surface.BinaryOp.level : BinaryOp → Nat
  | and | or => 0
  | eq | ne | lt | le | gt | ge => 1
  | add | sub => 2
  | mul | div | rem => 3

/-- A number as it is written, one that fits 64 bits. -/
structure Literal where
  text : String
  nonempty : text.toList ≠ []
  digits : ∀ c ∈ text.toList, c.isDigit = true
  fits : decimalValue text.toList < wordBound

namespace Literal

/-- A number's token. -/
def token (l : Literal) : BareToken := (.number, l.text)

/-- The number that is written. -/
def expr (l : Literal) : Expr := .mk (.number (decimalValue l.text.toList)) .null

end Literal

/-- An operator in front of its operand. -/
inductive Sigil where
  | neg | not | ref | deref | share

namespace Sigil

/-- The token of an operator. -/
def kind : Sigil → TokenKind
  | neg => .dash
  | not => .not
  | ref => .ampersand
  | deref => .star
  | share => .hash

/-- An operator on its operand. -/
def node : Sigil → Expr → ExprKind
  | neg, e => .unary .neg e
  | not, e => .unary .not e
  | ref, e => .ref e false
  | deref, e => .deref e
  | share, e => .share e

end Sigil

/-- What stands behind a value and belongs to it: `.name`, `[n]` or `(n, m)`. -/
inductive Suffix where
  | member (name : String)
  | index (position : Literal)
  | call (args : List Literal)

namespace Suffix

/-- A suffix as tokens. -/
def tokens : Suffix → List BareToken
  | member name => [sign .dot, (.identifier, name)]
  | index position => bracket [position.token]
  | call args => paren (commas (args.map fun l => [l.token]))

/-- A suffix on its base. -/
def node : Suffix → Expr → ExprKind
  | member name, e => .member e ⟨name, .null⟩
  | index position, e => .index e position.expr
  | call args, e => .call e (args.map Literal.expr)

end Suffix

/-- A number with operators in front of it and suffixes behind it. -/
structure Operand where
  sigils : List Sigil
  literal : Literal
  suffixes : List Suffix

namespace Operand

/-- An operand as tokens. -/
def tokens (a : Operand) : List BareToken :=
  a.sigils.map (fun s => sign s.kind) ++ a.literal.token :: a.suffixes.flatMap Suffix.tokens

/-- What an operand means: suffixes first, from left to right, and then the operators in front of them,
from right to left. -/
def expr (a : Operand) : Expr :=
  a.sigils.foldr (fun s e => .mk (s.node e) .null)
    (a.suffixes.foldl (fun e s => .mk (s.node e) .null) a.literal.expr)

end Operand

/-- Operands with operators between them. -/
def spellOperands (first : Operand) (more : List (BinaryOp × Operand)) : List BareToken :=
  first.tokens ++ more.flatMap fun next => sign (.ofBinary next.1) :: next.2.tokens

/-! ## Trees -/

/-- Operands that operators put together. -/
inductive OperatorTree where
  | leaf (operand : Operand)
  | node (op : BinaryOp) (left right : OperatorTree)

namespace OperatorTree

/-- The operands of a tree from left to right. -/
def operands : OperatorTree → List Operand
  | leaf a => [a]
  | node _ left right => left.operands ++ right.operands

/-- The operators of a tree from left to right. -/
def operators : OperatorTree → List BinaryOp
  | leaf _ => []
  | node op left right => left.operators ++ op :: right.operators

/-- The operator at the top of a tree. -/
def root? : OperatorTree → Option BinaryOp
  | leaf _ => none
  | node op _ _ => some op

/-- The expression of a tree, without places. -/
def expr : OperatorTree → Expr
  | leaf a => a.expr
  | node op left right => .mk (.binary op left.expr right.expr) .null

/-- The operator of a left operand binds at least as tightly as the one above it, and that of a right
operand more tightly. -/
def Grouped : OperatorTree → Prop
  | leaf _ => True
  | node op left right =>
    (∀ o ∈ left.root?, op.level ≤ o.level) ∧ (∀ o ∈ right.root?, op.level < o.level) ∧
      left.Grouped ∧ right.Grouped

/-- A tree's operands and operators are those of a text, in their order. -/
def Spells (t : OperatorTree) (first : Operand) (more : List (BinaryOp × Operand)) : Prop :=
  t.operands = first :: more.map Prod.snd ∧ t.operators = more.map Prod.fst

/-- A tree as tokens. -/
def tokens : OperatorTree → List BareToken
  | leaf a => a.tokens
  | node op left right => left.tokens ++ sign (.ofBinary op) :: right.tokens

/-! ### There is a grouped tree -/

/-- A tree with one more operand behind it, which goes to the lowest part of the right edge that it can. -/
def attach : OperatorTree → BinaryOp → Operand → OperatorTree
  | leaf b, op, a => node op (leaf b) (leaf a)
  | node o left right, op, a =>
    if o.level < op.level then node o left (right.attach op a) else node op (node o left right) (leaf a)

variable (t : OperatorTree) (op : BinaryOp) (a : Operand)

@[simp] theorem operands_attach : (t.attach op a).operands = t.operands ++ [a] := by
  induction t with
  | leaf b => rfl
  | node o left right _ ih =>
    unfold attach
    split
    · simp [operands, ih]
    · simp [operands]

@[simp] theorem operators_attach : (t.attach op a).operators = t.operators ++ [op] := by
  induction t with
  | leaf b => rfl
  | node o left right _ ih =>
    unfold attach
    split
    · simp [operators, ih]
    · simp [operators]

@[simp] theorem tokens_attach : (t.attach op a).tokens = t.tokens ++ sign (.ofBinary op) :: a.tokens := by
  induction t with
  | leaf b => rfl
  | node o left right _ ih =>
    unfold attach
    split
    · simp [tokens, ih]
    · simp [tokens]

/-- Behind an operator that binds more loosely, a tree grows below that operator. -/
theorem root?_attach {o : BinaryOp} (ht : ∀ r ∈ t.root?, o.level < r.level) (hop : o.level < op.level) :
    ∀ r ∈ (t.attach op a).root?, o.level < r.level := by
  cases t with
  | leaf b =>
    rintro r ⟨⟩
    exact hop
  | node o' left right =>
    unfold attach
    split
    · exact ht
    · rintro r ⟨⟩
      exact hop

theorem grouped_attach (ht : t.Grouped) : (t.attach op a).Grouped := by
  induction t with
  | leaf b => exact ⟨by simp [root?], by simp [root?], trivial, trivial⟩
  | node o left right _ ih =>
    obtain ⟨hleft, hright, hgl, hgr⟩ := ht
    unfold attach
    split
    · rename_i hlt
      exact ⟨hleft, right.root?_attach op a hright hlt, hgl, ih hgr⟩
    · rename_i hge
      refine ⟨?_, by simp [root?], ⟨hleft, hright, hgl, hgr⟩, trivial⟩
      rintro r ⟨⟩
      exact not_lt.mp hge

/-- For every text there is a grouped tree. -/
theorem exists_grouped (first : Operand) (more : List (BinaryOp × Operand)) :
    ∃ t : OperatorTree, t.Spells first more ∧ t.Grouped ∧ t.tokens = spellOperands first more := by
  induction more using List.reverseRecOn with
  | nil => exact ⟨leaf first, ⟨rfl, rfl⟩, trivial, by simp [tokens, spellOperands]⟩
  | append_singleton more next ih =>
    obtain ⟨t, ⟨hoperands, hoperators⟩, hgrouped, htokens⟩ := ih
    refine ⟨t.attach next.1 next.2, ⟨?_, ?_⟩, grouped_attach t _ _ hgrouped, ?_⟩
    · simp [hoperands]
    · simp [hoperators]
    · simp [htokens, spellOperands]

/-! ### There is only one -/

theorem length_operands : t.operands.length = t.operators.length + 1 := by
  induction t with
  | leaf b => rfl
  | node o left right ihl ihr =>
    simp only [operands, operators, List.length_append, List.length_cons, ihl, ihr]
    omega

variable {t op}

/-- Nothing in a grouped tree binds more loosely than the operator at its top. -/
theorem Grouped.root_le (ht : t.Grouped) {n : Nat} (hroot : ∀ r ∈ t.root?, n ≤ r.level) :
    ∀ o ∈ t.operators, n ≤ o.level := by
  induction t generalizing n with
  | leaf b => exact List.forall_mem_nil _
  | node op left right ihl ihr =>
    obtain ⟨hleft, hright, hgl, hgr⟩ := ht
    have hop : n ≤ op.level := hroot op rfl
    refine List.forall_mem_append.mpr ⟨ihl hgl fun r hr => hop.trans (hleft r hr), ?_⟩
    exact List.forall_mem_cons.mpr ⟨hop, ihr hgr fun r hr => hop.trans (hright r hr).le⟩

/-- The operator at the top of a grouped tree is the last of the loosest ones. -/
theorem top_unique {before before' behind behind' : List BinaryOp} {o o' : BinaryOp}
    (h : before ++ o :: behind = before' ++ o' :: behind')
    (hbehind : ∀ x ∈ behind, o.level < x.level) (hbefore' : ∀ x ∈ before', o'.level ≤ x.level) :
    before'.length ≤ before.length := by
  rcases List.append_eq_append_iff.mp h with ⟨mid, rfl, hmid⟩ | ⟨mid, rfl, -⟩
  · cases mid with
    | nil => simp
    | cons x mid =>
      -- `o` would be in front of `o'`, and `o'` behind `o`
      cases hmid
      have hle : o'.level ≤ o.level := hbefore' o (by simp)
      have hlt : o.level < o'.level := hbehind o' (by simp)
      omega
  · simp

/-- A text has only one grouped tree. -/
theorem grouped_unique {t' : OperatorTree} (ht : t.Grouped) (ht' : t'.Grouped)
    (hoperands : t.operands = t'.operands) (hoperators : t.operators = t'.operators) : t = t' := by
  induction t generalizing t' with
  | leaf b =>
    cases t' with
    | leaf b' => exact congrArg leaf (List.singleton_inj.mp hoperands)
    | node op' left' right' => simp [operators] at hoperators
  | node op left right ihl ihr =>
    cases t' with
    | leaf b' => simp [operators] at hoperators
    | node op' left' right' =>
      obtain ⟨hleft, hright, hgl, hgr⟩ := ht
      obtain ⟨hleft', hright', hgl', hgr'⟩ := ht'
      have hlength : left.operators.length = left'.operators.length := le_antisymm
        (top_unique hoperators.symm (hgr'.root_le hright') (hgl.root_le hleft))
        (top_unique hoperators (hgr.root_le hright) (hgl'.root_le hleft'))
      obtain ⟨hol, hor⟩ := List.append_inj hoperators hlength
      obtain ⟨rfl, hbehind⟩ := List.cons.inj hor
      obtain ⟨hal, har⟩ := List.append_inj hoperands (by simp only [length_operands, hlength])
      rw [ihl hgl hgl' hal hol, ihr hgr hgr' har hbehind]

end OperatorTree

/-! ## Reading -/

namespace Grammar

open Parse

variable {sub : Readers} {power : Power} {rest : List BareToken}

/-- A token that no operator begins with which binds tighter than `power`. -/
def stops (power : Power) (kind : TokenKind) : Prop :=
  ∀ sub own extend, operator? sub kind = some (own, extend) → own.rank ≤ power.rank

theorem stops_of_endsOperand (kind : TokenKind) (h : endsOperand kind) : stops power kind := by
  intro sub own extend hoperator
  rw [operator?_of_ends h] at hoperator
  cases hoperator

theorem stops_ofBinary {op : BinaryOp} (h : (operatorPower op).rank ≤ power.rank) :
    stops power (.ofBinary op) := by
  intro sub own extend hoperator
  rw [operator?_ofBinary] at hoperator
  cases hoperator
  exact h

theorem stops_mono {power' : Power} (hle : power.rank ≤ power'.rank) (kind : TokenKind)
    (h : stops power kind) : stops power' kind :=
  fun sub own extend hoperator => (h sub own extend hoperator).trans hle

/-- The level of an operator is the place of its power among those of binary operators. -/
theorem rank_operatorPower (op : BinaryOp) : (operatorPower op).rank = op.level + 2 := by
  cases op <;> rfl

theorem rank_operatorPower_lt (op : BinaryOp) : (operatorPower op).rank < Power.unary.rank := by
  cases op <;> decide

/-! ### Pieces behind an operand -/

/-- Operators with what belongs to them, one behind the other, make `e` out of `a`. -/
inductive Links (sub : Readers) (power : Power) (rest : List BareToken) :
    List (List BareToken) → Expr → Expr → Prop where
  | nil (e : Expr) : Links sub power rest [] e e
  | cons {kind own extend piece pieces a b e} (hkind : headKind piece = some kind)
      (hoperator : operator? sub kind = some (own, extend)) (hpower : own.tighter power = true)
      (hextend : ∀ left : Expr, left.bare = a →
        Reads (extend left) piece (pieces.flatten ++ rest) fun e' => e'.bare = b)
      (h : Links sub power rest pieces b e) : Links sub power rest (piece :: pieces) a e

theorem Links.ne_nil {pieces : List (List BareToken)} {a e : Expr} (h : Links sub power rest pieces a e) :
    ∀ piece ∈ pieces, piece ≠ [] := by
  induction h with
  | nil => exact List.forall_mem_nil _
  | cons hkind _ _ _ _ ih =>
    refine List.forall_mem_cons.mpr ⟨?_, ih⟩
    rintro rfl
    cases hkind

/-- An operand and what is linked to it, up to a token that stops. -/
theorem reads_links {text : List BareToken} {pieces : List (List BareToken)} {a e : Expr}
    (hfirst : Reads (operand sub) text (pieces.flatten ++ rest) fun e' => e'.bare = a)
    (h : Links sub power rest pieces a e) (hrest : Heads (stops power) rest) :
    Reads (expr sub power) (text ++ pieces.flatten) rest fun e' => e'.bare = e := by
  refine hfirst.seq fun left hleft => reads_iterate
    (I := fun pieces left => Links sub power rest pieces left.bare e) ?_ ?_ h.ne_nil (hleft ▸ h)
  · intro left hlinks
    cases hlinks
    refine ⟨rfl, reads_kind_of hrest fun kind hstops => ?_⟩
    split
    · rename_i own extend hoperator
      have hrank := hstops sub own extend hoperator
      rw [if_neg (by simpa [Power.tighter] using hrank)]
      exact reads_pure rfl
    · exact reads_pure rfl
  · intro left piece pieces hlinks
    obtain _ | ⟨hkind, hoperator, hpower, hextend, h⟩ := hlinks
    rename_i kind own extend b
    have hpiece : piece ≠ [] := by
      rintro rfl
      cases hkind
    refine reads_kind kind (by rw [headKind_append hpiece, hkind]) ?_
    simp only [hoperator]
    rw [if_pos hpower]
    exact (hextend left rfl).map fun e' he => ⟨e', rfl, he ▸ h⟩

/-! ### Trees of a bounded length -/

/-- The readers `sub` read grouped trees of less than `n` tokens, at each power below their top. -/
def ReadsTrees (sub : Readers) (n : Nat) : Prop :=
  ∀ (t : OperatorTree) (power : Power) (rest : List BareToken), t.Grouped → t.tokens.length < n →
    (∀ op ∈ t.root?, (operatorPower op).tighter power = true) → Power.call.tighter power = true →
    Heads (stops power) rest → Reads (sub (.expr power)) t.tokens rest fun e : Expr => e.bare = t.expr

variable {n : Nat}

theorem ReadsTrees.literal (h : ReadsTrees sub n) (hn : 1 < n) (l : Literal)
    (hrest : Heads endsOperand rest) : Reads sub.wholeExpr [l.token] rest fun e => e.bare = l.expr :=
  h (.leaf ⟨[], l, []⟩) .lowest rest trivial hn (by simp [OperatorTree.root?]) rfl
    (hrest.imp stops_of_endsOperand)

/-- A suffix is a link. -/
theorem ReadsTrees.suffix (h : ReadsTrees sub n) (hcall : Power.call.tighter power = true) (s : Suffix)
    (hlen : s.tokens.length ≤ n) {pieces : List (List BareToken)} {a e : Expr}
    (hlinks : Links sub power rest pieces (.mk (s.node a) .null) e) :
    Links sub power rest (s.tokens :: pieces) a e := by
  cases s with
  | member name =>
    have hmember : Power.member.tighter power = true :=
      decide_eq_true ((of_decide_eq_true hcall).trans (by decide))
    refine .cons rfl rfl hmember (fun left hleft => ?_) hlinks
    have hread : Reads (Grammar.member left) [sign .dot, Ident.print ⟨name, .null⟩]
        (pieces.flatten ++ rest) _ := reads_member
    exact hread.imp fun e' he => by rw [he, hleft]; rfl
  | index position =>
    have hn : 1 < n := by simp [Suffix.tokens] at hlen; omega
    refine .cons rfl rfl hcall (fun left hleft => ?_) hlinks
    exact (reads_index (h.literal hn position (heads_cons (by decide) _))).imp fun e' he => by
      rw [he, hleft]; rfl
  | call args =>
    have hn : 1 < n := by simp [Suffix.tokens] at hlen; omega
    refine .cons rfl rfl hcall (fun left hleft => ?_) hlinks
    have hargs : ∀ l ∈ args, ReadsListed sub.wholeExpr .closeParen [l.token] fun e => e.bare = l.expr := by
      intro l _ t more ht
      refine h.literal hn l ?_
      rcases ht with ht | ht <;> exact heads_cons (by rw [ht]; decide) more
    refine (reads_call (reads_argumentList (fun l _ => ?_) hargs)).imp fun e' he => by rw [he, hleft]; rfl
    exact heads_cons (show TokenKind.number ≠ .closeParen by decide) _

/-- Suffixes are links, in front of others. -/
theorem ReadsTrees.suffixes (h : ReadsTrees sub n) (hcall : Power.call.tighter power = true)
    (suffixes : List Suffix) (hlen : (suffixes.flatMap Suffix.tokens).length ≤ n)
    {pieces : List (List BareToken)} {a e : Expr}
    (hlinks : Links sub power rest pieces (suffixes.foldl (fun e s => .mk (s.node e) .null) a) e) :
    Links sub power rest (suffixes.map Suffix.tokens ++ pieces) a e := by
  induction suffixes generalizing a with
  | nil => exact hlinks
  | cons s suffixes ih =>
    simp only [List.flatMap_cons, List.length_append] at hlen
    exact h.suffix hcall s (by omega) (ih (by omega) hlinks)

/-- An operator in front of an operand, which is read at the power of such operators. -/
theorem reads_sigil {text : List BareToken} {a : Expr} (s : Sigil)
    (h : Reads (sub (.expr .unary)) text rest fun e : Expr => e.bare = a)
    (htext : headKind (text ++ rest) ≠ some .kwConst) :
    Reads (operand sub) (sign s.kind :: text) rest fun e => e.bare = .mk (s.node a) .null := by
  cases s with
  | neg => exact reads_kind .dash rfl (reads_prefixed h fun e he => congrArg (ExprKind.unary .neg) he)
  | not => exact reads_kind .not rfl (reads_prefixed h fun e he => congrArg (ExprKind.unary .not) he)
  | ref =>
    have hread : Reads (reference sub) (sign .ampersand :: (signIf false .kwConst ++ text)) rest _ :=
      reads_reference h htext
    exact reads_kind .ampersand rfl hread
  | deref => exact reads_kind .star rfl (reads_prefixed h fun e he => congrArg ExprKind.deref he)
  | share => exact reads_kind .hash rfl (reads_prefixed h fun e he => congrArg ExprKind.share he)

/-- An operand is a sign or a number. -/
theorem headKind_operand (a : Operand) (more : List BareToken) :
    headKind (a.tokens ++ more) ≠ some .kwConst := by
  obtain ⟨_ | ⟨s, sigils⟩, literal, suffixes⟩ := a
  · exact fun h => by cases h
  · cases s <;> exact fun h => by cases h

/-- An operand, and what is linked to it. -/
theorem ReadsTrees.operand (h : ReadsTrees sub n) (hcall : Power.call.tighter power = true) (a : Operand)
    (hlen : a.tokens.length ≤ n) {pieces : List (List BareToken)} {e : Expr}
    (hlinks : Links sub power rest pieces a.expr e)
    (hahead : Heads (stops .unary) (pieces.flatten ++ rest)) (hrest : Heads (stops power) rest) :
    Reads (expr sub power) (a.tokens ++ pieces.flatten) rest fun e' => e'.bare = e := by
  obtain ⟨_ | ⟨s, sigils⟩, literal, suffixes⟩ := a
  · -- without a sign, the suffixes are links like the operators behind them
    simp only [Operand.tokens, List.map_nil, List.nil_append, List.length_cons] at hlen
    have hall := h.suffixes hcall suffixes (by omega) hlinks
    have hread : Reads (expr sub power) ([literal.token] ++ (suffixes.map Suffix.tokens ++ pieces).flatten) rest
        fun e' => e'.bare = e :=
      reads_links (reads_kind .number rfl (reads_number rfl literal.fits)) hall hrest
    simpa [Operand.tokens, List.flatMap_def] using hread
  · -- the sign takes them
    have hinner := h (.leaf ⟨sigils, literal, suffixes⟩) .unary (pieces.flatten ++ rest) trivial
      (Nat.lt_of_succ_le hlen) (by simp [OperatorTree.root?]) rfl hahead
    exact reads_links (reads_sigil s hinner (headKind_operand ⟨sigils, literal, suffixes⟩ _)) hlinks hrest

/-- What stops behind a tree with a certain operator at its top. -/
def topPower (t : OperatorTree) : Power := (t.root?.map operatorPower).getD .unary

/-- A tree, and what is linked to it: along its left edge. -/
theorem ReadsTrees.tree (h : ReadsTrees sub n) (hcall : Power.call.tighter power = true) (t : OperatorTree)
    (ht : t.Grouped) (hlen : t.tokens.length ≤ n)
    (hroot : ∀ op ∈ t.root?, (operatorPower op).tighter power = true) {pieces : List (List BareToken)}
    {e : Expr} (hlinks : Links sub power rest pieces t.expr e)
    (hahead : Heads (stops (topPower t)) (pieces.flatten ++ rest)) (hrest : Heads (stops power) rest) :
    Reads (Grammar.expr sub power) (t.tokens ++ pieces.flatten) rest fun e' => e'.bare = e := by
  induction t generalizing pieces with
  | leaf a => exact h.operand hcall a hlen hlinks hahead hrest
  | node op left right ihl ihr =>
    obtain ⟨hleft, hright, hgl, hgr⟩ := ht
    simp only [OperatorTree.tokens, List.length_append, List.length_cons] at hlen
    have hop : (operatorPower op).tighter power = true := hroot op rfl
    -- the operator and its right operand are one more link
    have hlink : Links sub power rest ((sign (.ofBinary op) :: right.tokens) :: pieces) left.expr e := by
      refine .cons rfl (operator?_ofBinary op) hop (fun e' he => ?_) hlinks
      suffices hreads : Reads (sub (.expr (operatorPower op))) right.tokens _ fun e => e.bare = right.expr from
        (reads_binary hreads).imp fun e'' he' => by rw [he', he]; rfl
      refine h right _ _ hgr (by omega) (fun o ho => ?_) ?_ hahead
      · simpa [Power.tighter, rank_operatorPower] using hright o ho
      · exact decide_eq_true ((rank_operatorPower_lt op).trans (by decide))
    have hread := ihl hgl (by omega) (fun o ho => ?_) hlink ?_
    · simpa [OperatorTree.tokens] using hread
    · have hle := hleft o ho
      simp only [Power.tighter, rank_operatorPower, decide_eq_true_eq] at hop ⊢
      omega
    · refine heads_cons (stops_ofBinary ?_) _
      cases left with
      | leaf a => exact (rank_operatorPower_lt op).le
      | node o left right =>
        have hle := hleft o rfl
        simp only [topPower, OperatorTree.root?, Option.map_some, Option.getD_some, rank_operatorPower]
        omega

theorem readsTrees_rulesTo (n : Nat) : ReadsTrees (rulesTo n) n := by
  induction n with
  | zero => exact fun t power rest _ hlen => absurd hlen (Nat.not_lt_zero _)
  | succ n ih =>
    intro t power rest ht hlen hroot hcall hrest
    have hahead : Heads (stops (topPower t)) rest := by
      refine hrest.imp (stops_mono ?_)
      unfold topPower
      cases htop : t.root? with
      | none => cases power <;> first | decide | cases hcall
      | some op => simpa [Power.tighter] using (of_decide_eq_true (hroot op htop)).le
    have hread := ih.tree hcall t ht (Nat.le_of_lt_succ hlen) hroot (.nil t.expr) hahead hrest
    rwa [List.flatten_nil, List.append_nil] at hread

/-- A text of operands with operators between them, up to a token that no operator begins with, is read
as the one tree over these operands and operators whose operators are grouped by their levels, from left
to right in each level. -/
theorem expr_grouped (first : Operand) (more : List (BinaryOp × Operand)) (follow : BareToken)
    (rest : List BareToken) (hfollow : endsOperand follow.1) (c : Cursor)
    (hc : c.ahead = spellOperands first more ++ follow :: rest) :
    ∃ t : OperatorTree, t.Spells first more ∧ t.Grouped ∧
      (∀ t' : OperatorTree, t'.Spells first more → t'.Grouped → t' = t) ∧
      ∃ e d, rule (.expr .lowest) c = .ok e d ∧ d.ahead = follow :: rest ∧ d.tokens = c.tokens ∧
        e.bare = t.expr := by
  obtain ⟨t, hspells, hgrouped, htokens⟩ := OperatorTree.exists_grouped first more
  refine ⟨t, hspells, hgrouped, fun t' hspells' hgrouped' => ?_, ?_⟩
  · exact OperatorTree.grouped_unique hgrouped' hgrouped (hspells'.1.trans hspells.1.symm)
      (hspells'.2.trans hspells.2.symm)
  · rw [← htokens] at hc
    have hread : Reads (rule (.expr .lowest)) t.tokens (follow :: rest) fun e : Expr => e.bare = t.expr :=
      reads_rule fun n hn => readsTrees_rulesTo n t .lowest _ hgrouped hn
        (fun op _ => operatorPower_tighter op) rfl (heads_cons (stops_of_endsOperand _ hfollow) _)
    obtain ⟨e, d, hrun, hd, he⟩ := hread (List.cons_ne_nil _ _) c hc
    have hmoves (r : Rule) : Moves (rule r) := inferInstance
    exact ⟨e, d, hrun, hd, ((hmoves (.expr .lowest)).moves hrun).tokens, he⟩

/-! `1 - 2 - -3.x * 4 < 5(6)` in front of a semicolon. -/

section Sample

private def plain (text : String) (nonempty : text.toList ≠ []) (digits : ∀ c ∈ text.toList, c.isDigit = true)
    (fits : decimalValue text.toList < wordBound) : Operand := ⟨[], ⟨text, nonempty, digits, fits⟩, []⟩

private def one : Operand := plain "1" (by decide) (by simp) (by decide)

private def two : Operand := plain "2" (by decide) (by simp) (by decide)

private def minusThree : Operand :=
  ⟨[.neg], ⟨"3", by decide, by simp, by decide⟩, [.member "x"]⟩

private def four : Operand := plain "4" (by decide) (by simp) (by decide)

private def fiveOfSix : Operand :=
  ⟨[], ⟨"5", by decide, by simp, by decide⟩, [.call [⟨"6", by decide, by simp, by decide⟩]]⟩

private def sampleRest : List (BinaryOp × Operand) := [(.sub, two), (.sub, minusThree), (.mul, four), (.lt, fiveOfSix)]

private def sampleTree : OperatorTree :=
  .node .lt (.node .sub (.node .sub (.leaf one) (.leaf two)) (.node .mul (.leaf minusThree) (.leaf four)))
    (.leaf fiveOfSix)

private def sampleCursor : Cursor where
  before := []
  current := ⟨.number, "1", .null⟩
  after := ((spellOperands one sampleRest).drop 1 ++ [sign .semicolon]).map fun t => ⟨t.1, t.2, .null⟩

theorem expr_grouped_sample :
    endsOperand (sign .semicolon).1 ∧ sampleCursor.ahead = spellOperands one sampleRest ++ sign .semicolon :: [] ∧
      sampleTree.Spells one sampleRest ∧ sampleTree.Grouped ∧
      ∃ e d, rule (.expr .lowest) sampleCursor = .ok e d ∧ d.ahead = [sign .semicolon] ∧
        e.bare = sampleTree.expr := by
  have hfollow : endsOperand (sign .semicolon).1 := by decide
  have hahead : sampleCursor.ahead = spellOperands one sampleRest ++ sign .semicolon :: [] := by
    simp [sampleCursor, Cursor.ahead, Token.bare, Function.comp_def, spellOperands, one, plain, Operand.tokens,
      Literal.token, sign]
  have hspells : sampleTree.Spells one sampleRest := ⟨rfl, rfl⟩
  have hgrouped : sampleTree.Grouped := by
    simp [sampleTree, OperatorTree.Grouped, OperatorTree.root?, BinaryOp.level]
  obtain ⟨t, -, -, hunique, e, d, hrun, hd, -, he⟩ :=
    expr_grouped one sampleRest (sign .semicolon) [] hfollow sampleCursor hahead
  obtain rfl := hunique sampleTree hspells hgrouped
  exact ⟨hfollow, hahead, hspells, hgrouped, e, d, hrun, hd, he⟩

end Sample

end Grammar

end OwnLang
