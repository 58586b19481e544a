import OwnLang.Proofs.Grammar.Spelled

/-!
# Spans nest

What is written in a form has the tokens of its parts one behind the other, so the nodes of a form stand
apart (`Spells.apart`), and a node inside of another one has some of its tokens (`Spells.child`). A node that
is not a type has the span of all its tokens (`Spells.covers`), so the span of what is inside of it lies
within (`Token.InOrder.within`), whatever types stand in between.
-/

namespace OwnLang

open Surface (Node)

namespace Spelling

/-! ## The nodes of a form -/

/-- The nodes of a form. -/
def nodes (form : List Piece) : List Node :=
  form.filterMap fun
    | .node n => some n
    | .token _ => none

@[simp] theorem nodes_nil : nodes [] = [] := rfl

@[simp] theorem nodes_sign (kind : TokenKind) (form : List Piece) : nodes (sign kind :: form) = nodes form := rfl

@[simp] theorem nodes_name (x : Surface.Ident) (form : List Piece) : nodes (name x :: form) = nodes form := rfl

@[simp] theorem nodes_token (p : Token → Prop) (form : List Piece) : nodes (.token p :: form) = nodes form := rfl

@[simp] theorem nodes_node (n : Node) (form : List Piece) : nodes (.node n :: form) = n :: nodes form := rfl

@[simp] theorem nodes_append (form form' : List Piece) : nodes (form ++ form') = nodes form ++ nodes form' :=
  List.filterMap_append

@[simp] theorem nodes_flatMap {α : Type} (f : α → List Piece) (l : List α) :
    nodes (l.flatMap f) = l.flatMap fun a => nodes (f a) := by
  induction l with
  | nil => rfl
  | cons a l ih => rw [List.flatMap_cons, nodes_append, ih, List.flatMap_cons]

@[simp] theorem nodes_map {α : Type} (f : α → Node) (l : List α) :
    nodes (l.map fun a => .node (f a)) = l.map f := by
  induction l with
  | nil => rfl
  | cons a l ih => rw [List.map_cons, nodes_node, ih, List.map_cons]

theorem mem_nodes {n : Node} {form : List Piece} : n ∈ nodes form ↔ .node n ∈ form := by
  simp only [nodes, List.mem_filterMap]
  constructor
  · rintro ⟨_ | m, hm, hsame⟩ <;> cases hsame
    exact hm
  · exact fun h => ⟨_, h, rfl⟩

section

variable {items : List (List Piece)} {form : List Piece} {args : List Surface.Expr}

@[simp] theorem nodes_ended (items : List (List Piece)) : nodes (ended items) = items.flatMap nodes := by
  simp [ended]

theorem Separated.nodes_eq (h : Separated items form) : nodes form = items.flatMap nodes := by
  obtain ⟨init, last, rfl, rfl⟩ := h
  simp

theorem Listed.nodes_eq (h : Listed items form) : nodes form = items.flatMap nodes := by
  rcases h with rfl | h
  · exact nodes_ended items
  · exact h.nodes_eq

theorem Parameters.nodes_eq {variadic : Bool} (h : Parameters items variadic form) :
    nodes form = items.flatMap nodes := by
  rcases h with ⟨-, h⟩ | ⟨-, rfl⟩
  · exact h.nodes_eq
  · simp

@[simp] theorem nodes_path (names : List Surface.Ident) : nodes (path names) = [] := by
  cases names <;> simp [path]

theorem TypeArgs.nodes_eq {args : List Surface.TypeExpr} (h : TypeArgs args form) :
    nodes form = args.map .type := by
  rcases h with ⟨rfl, rfl⟩ | ⟨inner, h, rfl⟩
  · rfl
  · simp [h.nodes_eq, List.flatMap_map, ← List.map_eq_flatMap]

theorem Template.nodes_eq {names : List Surface.Ident} (h : Template names form) : nodes form = [] := by
  rcases h with ⟨rfl, rfl⟩ | ⟨inner, h, rfl⟩
  · rfl
  · simp [h.nodes_eq, List.flatMap_map]

theorem Arguments.nodes_eq (h : Arguments args form) : nodes form = args.map .expr := by
  obtain ⟨inner, h, rfl⟩ := h
  simp [h.nodes_eq, List.flatMap_map, ← List.map_eq_flatMap]

theorem Fields.nodes_eq {fields : List (Surface.Ident × Surface.Expr)} (h : Fields fields form) :
    nodes form = fields.map fun field => .expr field.2 := by
  obtain ⟨inner, h, rfl⟩ := h
  simp [h.nodes_eq, List.flatMap_map, ← List.map_eq_flatMap]

theorem Allocated.nodes_eq {heap : Bool} {kind : Surface.ExprKind} (h : Allocated heap kind form) :
    nodes form = kind.children := by
  cases h with
  | arrayInit h =>
    simp [h.nodes_eq, Surface.ExprKind.children, List.flatMap_map, ← List.map_eq_flatMap]
  | struct h => simp [h.nodes_eq, Surface.ExprKind.children]
  | arrayFill | value => rfl

theorem Pointer.nodes_eq {constant : Bool} {kind : Surface.TypeKind} (h : Pointer constant kind form) :
    nodes form = kind.children := by
  cases h <;> rfl

@[simp] theorem nodes_ascription (t : Option Surface.TypeExpr) : nodes (ascription t) = t.toList.map .type := by
  cases t <;> rfl

@[simp] theorem nodes_initializer (value : Option Surface.Expr) :
    nodes (initializer value) = value.toList.map .expr := by
  cases value <;> rfl

@[simp] theorem nodes_varDecl (decl : Surface.VarDecl) : nodes (varDecl decl) = decl.children := by
  simp [varDecl, Surface.VarDecl.children]

@[simp] theorem nodes_label (x : Option Surface.Ident) : nodes (label x) = [] := by
  cases x <;> rfl

@[simp] theorem nodes_branch (b : Surface.Expr × Surface.Block) : nodes (branch b) = [.expr b.1, .block b.2] := rfl

@[simp] theorem nodes_branches (bs : List (Surface.Expr × Surface.Block)) :
    nodes (branches bs) = bs.flatMap fun b => [.expr b.1, .block b.2] := by
  cases bs <;> simp [branches]

@[simp] theorem nodes_otherwise (b : Option Surface.Block) : nodes (otherwise b) = b.toList.map .block := by
  cases b <;> rfl

@[simp] theorem nodes_body (b : Option Surface.Block) : nodes (body b) = b.toList.map .block := by
  cases b <;> rfl

@[simp] theorem nodes_stmt (s : Surface.Stmt) : nodes (stmt s) = [.stmt s] := by
  obtain ⟨kind, span⟩ := s
  cases kind <;> rfl

@[simp] theorem nodes_structPart (part : Grammar.StructPart) :
    nodes (structPart part) = match part with
      | .field decl => decl.children
      | .method decl => [.function decl] := by
  cases part with
  | field decl => simp [structPart]
  | method decl => cases h : decl.kind <;> simp [structPart, h]

@[simp] theorem nodes_macroParam (p : Surface.MacroParam) : nodes (macroParam p) = [.type p.type] := by
  obtain ⟨_ | _, t⟩ := p <;> rfl

theorem Declaration.children_subset {kind : Surface.ItemKind} (h : Declaration kind form) :
    kind.children ⊆ nodes form := by
  cases h with
  | struct =>
    intro m hm
    simp only [Surface.ItemKind.children, List.mem_append, List.mem_flatMap, List.mem_map, List.mem_filterMap] at hm
    simp only [nodes_sign, nodes_name, nodes_append, nodes_flatMap, nodes_nil, List.append_nil, List.mem_flatMap]
    rcases hm with ⟨decl, ⟨part, hpart, hdecl⟩, hm⟩ | ⟨decl, ⟨part, hpart, hdecl⟩, rfl⟩
    · cases part <;> cases hdecl
      exact ⟨_, hpart, by simpa using hm⟩
    · cases part <;> cases hdecl
      exact ⟨_, hpart, by simp⟩
  | macroDecl h => simp [h.nodes_eq, Surface.ItemKind.children, List.flatMap_map, ← List.map_eq_flatMap]
  | function | global | typeAlias => simp [Surface.ItemKind.children]

end

/-- What is inside of a node is in its form, or it is what is inside of a node in there. -/
theorem Production.children_subset {n : Node} {covered behind : List Piece} (h : Production n covered behind) :
    n.children ⊆ nodes (covered ++ behind) ∨ ∃ n', .node n' ∈ covered ∧ n'.children = n.children := by
  cases h with
  | @group kind s inner => exact .inr ⟨.expr (.mk kind inner), by simp [expr], rfl⟩
  | @constArray element constant size s inner =>
    exact .inr ⟨.type (.mk (.array element constant size) inner), by simp [type], rfl⟩
  | @typeGroup kind s inner form h =>
    refine .inr ⟨.type (.mk kind inner), mem_nodes.mp ?_, rfl⟩
    simp [h.nodes_eq]
  | path h | macroCall h | call h | structValue h =>
    left
    simp [h.nodes_eq, Node.children, Surface.Expr.kind, Surface.ExprKind.children]
  | named h | structType h =>
    left
    simp [h.nodes_eq, Node.children, Surface.TypeExpr.kind, Surface.TypeKind.children]
  | array h | allocation h =>
    left
    simp [h.nodes_eq, Node.children, Surface.Expr.kind]
  | pointer h | constPointer h =>
    left
    simp [h.nodes_eq, Node.children, Surface.TypeExpr.kind]
  | func h =>
    left
    simp [h.nodes_eq, Node.children, Surface.TypeExpr.kind, Surface.TypeKind.children, List.flatMap_map,
      ← List.map_eq_flatMap]
  | function h =>
    left
    simp [h.nodes_eq, Node.children, Surface.FnDecl.children, List.flatMap_map, ← List.map_eq_flatMap]
  | item ht h =>
    left
    simpa [ht.nodes_eq, Node.children] using h.children_subset
  | @ref e constant s =>
    cases constant <;> exact .inl (List.Subset.refl _)
  | number | bool | str | unary | deref | share | index | member | binary | assign | exprStmt | scope =>
    exact .inl (List.Subset.refl _)
  | arrayType =>
    left
    simp [Node.children, Surface.TypeExpr.kind, Surface.TypeKind.children]
  | decl | ret | brk | cont | cond | loop | forLoop =>
    left
    simp [Node.children, Surface.Stmt.kind, Surface.StmtKind.children]
  | block =>
    left
    simp [Node.children, Surface.Block.stmts, ← List.map_eq_flatMap]

/-! ## Tokens of nodes -/

section

variable {ts own : List Token} {form : List Piece} {n m : Node}

/-- A node of a form has some of the tokens. -/
theorem Spells.of_mem (h : Spells ts form) (hn : n ∈ nodes form) : ∃ own, own <:+: ts ∧ Spells own [.node n] := by
  induction h with
  | nil => cases hn
  | @token p t ts form _ _ ih =>
    obtain ⟨own, hin, hown⟩ := ih hn
    exact ⟨own, hin.trans (List.suffix_cons t ts).isInfix, hown⟩
  | @node n' covered behind own more ts form hform hown hspan hmore _ _ _ ih =>
    rcases List.mem_cons.mp hn with rfl | hn
    · refine ⟨own ++ (more ++ []), ?_, .node hform hown hspan hmore .nil⟩
      exact ⟨[], ts, by simp⟩
    · obtain ⟨own', hin, hown'⟩ := ih hn
      exact ⟨own', hin.trans ⟨own ++ more, [], by simp⟩, hown'⟩

theorem Spells.child_of_mem (h : Spells ts form) (hn : n ∈ nodes form) (hm : m ∈ n.children) :
    ∃ own, own <:+: ts ∧ Spells own [.node m] := by
  induction h generalizing n with
  | nil => cases hn
  | @token p t ts form _ _ ih =>
    obtain ⟨own, hin, hown⟩ := ih hn hm
    exact ⟨own, hin.trans (List.suffix_cons t ts).isInfix, hown⟩
  | @node n' covered behind own more ts form hform hown _ hmore _ ihown _ ih =>
    rcases List.mem_cons.mp hn with rfl | hn
    · rcases hform.children_subset with hsub | ⟨n', hn', hsame⟩
      · obtain ⟨own', hin, hown'⟩ := (hown.append hmore).of_mem (hsub hm)
        exact ⟨own', hin.trans ⟨[], ts, by simp⟩, hown'⟩
      -- what stands in parentheses is not inside of the node, but the same node at another place
      · obtain ⟨own', hin, hown'⟩ := ihown (mem_nodes.mpr hn') (hsame ▸ hm)
        exact ⟨own', hin.trans ⟨[], more ++ ts, by simp⟩, hown'⟩
    · obtain ⟨own', hin, hown'⟩ := ih hn hm
      exact ⟨own', hin.trans ⟨own ++ more, [], by simp⟩, hown'⟩

/-- A node inside of another one has some of its tokens. -/
theorem Spells.child (h : Spells own [.node n]) (hm : m ∈ n.children) :
    ∃ own', own' <:+: own ∧ Spells own' [.node m] :=
  h.child_of_mem List.mem_cons_self hm

theorem Spells.enclosed (h : Spells own [.node n]) (hm : n.Encloses m) :
    ∃ own', own' <:+: own ∧ Spells own' [.node m] := by
  induction hm with
  | child hm => exact h.child hm
  | through _ hm ih =>
    obtain ⟨around, haround, htype⟩ := ih
    obtain ⟨own', hin, hown'⟩ := htype.child hm
    exact ⟨own', hin.trans haround, hown'⟩

/-- Down from the declarations, a node of a file has some of the tokens. -/
theorem Spells.of_part {file : Surface.Module} (h : Spells ts (file.items.map fun i => .node (.item i)))
    (hn : file.Part n) : ∃ own, own <:+: ts ∧ Spells own [.node n] := by
  induction hn with
  | item hi => exact h.of_mem (by simpa using hi)
  | child _ hm ih =>
    obtain ⟨around, haround, hn⟩ := ih
    obtain ⟨own, hin, hown⟩ := hn.child hm
    exact ⟨own, hin.trans haround, hown⟩

/-- The span of a node is that of its tokens, or of the first of them. -/
theorem Spells.covers (h : Spells own [.node n]) :
    ∃ part, part <+: own ∧ n.span.Covers part ∧ (n.isType = false → part = own) := by
  cases h with
  | @node _ covered behind part more ts _ hform _ hspan hmore h =>
    cases h
    refine ⟨part, List.prefix_append _ _, hspan, fun hn => ?_⟩
    have hbehind : behind = [] := by cases hform <;> first | rfl | cases hn
    subst hbehind
    cases hmore
    simp

/-- The nodes of a form stand one behind the other. -/
theorem Spells.apart (h : Spells ts form) (hts : ts.Pairwise fun a b => a.span.stop ≤ b.span.start) :
    (nodes form).Pairwise fun n m => n.span.stop ≤ m.span.start := by
  induction h with
  | nil => exact .nil
  | token _ _ ih => exact ih (List.pairwise_cons.mp hts).2
  | @node n covered behind own more ts form _ _ hspan _ h _ _ ih =>
    obtain ⟨-, hts, hbefore⟩ := List.pairwise_append.mp hts
    obtain ⟨-, hts, -⟩ := List.pairwise_append.mp hts
    refine List.pairwise_cons.mpr ⟨fun m hm => ?_, ih hts⟩
    obtain ⟨own', hin, hown'⟩ := h.of_mem hm
    obtain ⟨part, hpart, ⟨first, -, hfirst, -, -, hstart, -⟩, -⟩ := hown'.covers
    obtain ⟨-, last, -, hlast, -, -, hstop⟩ := hspan
    rw [hstart, hstop]
    refine hbefore last (List.mem_of_getLast? hlast) first (List.mem_append_right _ ?_)
    exact hin.subset (hpart.subset (List.mem_of_head? hfirst))

/-- The statements of a block stand one behind the other. -/
theorem Spells.stmts_apart {b : Surface.Block} (h : Spells own [.node (.block b)])
    (hown : own.Pairwise fun a b => a.span.stop ≤ b.span.start) :
    b.stmts.Pairwise fun s t => s.span.stop ≤ t.span.start := by
  cases h with
  | node hform hspelled _ _ _ =>
    cases hform
    have hapart := hspelled.apart (List.pairwise_append.mp hown).1
    simpa [← List.map_eq_flatMap, List.pairwise_map, Node.span, Surface.Block.stmts] using hapart

end

end Spelling

/-! ## Spans -/

section

variable {file : String} {tokens own : List Token} {s : Span}

/-- A token is within the span of tokens around it. -/
theorem Token.InOrder.within_of_mem {t : Token} (h : Token.InOrder file tokens) (hown : own <:+: tokens)
    (hs : s.Covers own) (ht : t ∈ own) : t.span.Within s := by
  obtain ⟨first, last, hfirst, hlast, hfile, hstart, hstop⟩ := hs
  have hforward {u : Token} (hu : u ∈ own) : u.span.start ≤ u.span.stop := h.forward u (hown.subset hu)
  have hsame {u : Token} (hu : u ∈ own) : u.span.file = file := h.file u (hown.subset hu)
  have hapart := h.apart.sublist hown.sublist
  have hlastMem := List.mem_of_getLast? hlast
  refine ⟨?_, ?_, ?_⟩
  · rw [hfile, hsame ht, hsame (List.mem_of_head? hfirst)]
  · rw [hstart]
    obtain ⟨rest, rfl⟩ := List.head?_eq_some_iff.mp hfirst
    rcases List.mem_cons.mp ht with rfl | hrest
    · exact le_rfl
    · exact (hforward List.mem_cons_self).trans ((List.pairwise_cons.mp hapart).1 t hrest)
  · rw [hstop]
    obtain ⟨init, rfl⟩ := List.getLast?_eq_some_iff.mp hlast
    rcases List.mem_append.mp ht with hinit | hend
    · exact ((List.pairwise_append.mp hapart).2.2 t hinit last (List.mem_singleton_self _)).trans (hforward hlastMem)
    · rw [List.mem_singleton.mp hend]

/-- The span of some tokens is within the span of tokens around them. -/
theorem Token.InOrder.within {part : List Token} {s' : Span} (h : Token.InOrder file tokens)
    (hown : own <:+: tokens) (hs : s.Covers own) (hpart : part <:+: own) (hs' : s'.Covers part) : s'.Within s := by
  obtain ⟨first, last, hfirst, hlast, hfile, hstart, hstop⟩ := hs'
  have hleft := h.within_of_mem hown hs (hpart.subset (List.mem_of_head? hfirst))
  have hright := h.within_of_mem hown hs (hpart.subset (List.mem_of_getLast? hlast))
  exact ⟨hfile.trans hleft.1, hstart ▸ hleft.2.1, hstop ▸ hright.2.2⟩

end

/-- The declarations of a file are written in tokens in front of the `eof`. -/
theorem parse_spells {name text : String} {file : Surface.Module} (h : parse name text = .ok file) :
    ∃ front last own, tokenize text name = .ok (front ++ [last]) ∧ own <:+: front ∧
      Spelling.Spells own (file.items.map fun i => .node (.item i)) := by
  obtain ⟨t, rest, d, htokens, hrun⟩ := parse_eq_ok h
  obtain ⟨c, hleads, -, own, htaken, hspells⟩ :=
    Grammar.writes_file (c := ⟨[], t, rest⟩) Grammar.spelled_rule (inOrder_tokenize htokens).ended hrun
  have hall : t :: rest = c.before.reverse ++ (own ++ d.current :: d.after) := by
    rw [← htaken.rest]
    exact hleads.tokens.symm
  obtain ⟨behind, last, hbehind⟩ : ∃ behind last, d.current :: d.after = behind ++ [last] :=
    ⟨_, _, (List.dropLast_append_getLast (List.cons_ne_nil _ _)).symm⟩
  rw [htokens, hall, hbehind]
  exact ⟨c.before.reverse ++ own ++ behind, last, own, by simp, List.infix_append _ _ _, hspells⟩

/-- Spans nest. The span of a node is that of tokens that the node is written in, and it is not empty; what
stands in a node that is not a type is within its span, whatever types are in between; and the statements of a
block stand one behind the other, as do the declarations of a file. -/
theorem parse_spans_nest {name text : String} {file : Surface.Module} (h : parse name text = .ok file) :
    ∃ tokens, tokenize text name = .ok tokens ∧
      (∀ n, file.Part n → ∃ own, own <:+: tokens ∧ Spelling.Spells own [.node n] ∧
        (∃ t ∈ own, n.span.start = t.span.start) ∧ (∃ t ∈ own, n.span.stop = t.span.stop) ∧
        n.span.file = name ∧ n.span.start < n.span.stop ∧ n.span.stop ≤ text.utf8ByteSize) ∧
      (∀ m, file.Part m → (∃ i ∈ file.items, m = .item i) ∨ ∃ n, file.Part n ∧ n.isType = false ∧ n.Encloses m) ∧
      (∀ n m, file.Part n → n.isType = false → n.Encloses m → m.span.Within n.span) ∧
      (∀ b, file.Part (.block b) → b.stmts.Pairwise fun s t => s.span.stop ≤ t.span.start) ∧
      file.items.Pairwise fun i j => i.span.stop ≤ j.span.start := by
  obtain ⟨front, last, all, htokens, hall, hspells⟩ := parse_spells h
  have horder := inOrder_tokenize htokens
  obtain ⟨found, hfound, htiles⟩ := (tokenize_tiles text name).1 _ htokens
  obtain ⟨rfl, -⟩ := List.append_inj' hfound rfl
  have hfront : front <:+: front ++ [last] := (List.prefix_append front [last]).isInfix
  have hapart {own : List Token} (hown : own <:+: front) : own.Pairwise fun a b => a.span.stop ≤ b.span.start :=
    horder.apart.sublist (hown.trans hfront).sublist
  have hpart {n : Node} (hn : file.Part n) : ∃ own, own <:+: front ∧ Spelling.Spells own [.node n] := by
    obtain ⟨own, hin, hown⟩ := hspells.of_part hn
    exact ⟨own, hin.trans hall, hown⟩
  refine ⟨front ++ [last], htokens, fun n hn => ?_, fun m hm => hm.enclosed, fun n m hn hplain hm => ?_,
    fun b hb => ?_, ?_⟩
  · obtain ⟨own, hin, hown⟩ := hpart hn
    obtain ⟨part, hpart, hcovers, -⟩ := hown.covers
    have ⟨t, u, ht, hu, hfile, hstart, hstop⟩ := hcovers
    have htown := hpart.subset (List.mem_of_head? ht)
    have huown := hpart.subset (List.mem_of_getLast? hu)
    have hfirst := horder.within_of_mem ((hpart.isInfix.trans hin).trans hfront) hcovers (List.mem_of_head? ht)
    have hnonempty := htiles.nonempty (hin.subset htown)
    refine ⟨own, hin.trans hfront, hown, ⟨t, htown, hstart⟩, ⟨u, huown, hstop⟩, hfile.trans hnonempty.1, ?_, ?_⟩
    · rw [hstart]
      exact hnonempty.2.trans_le hfirst.2.2
    · rw [hstop, ← byteWidth_toList]
      exact htiles.stop_le (hin.subset huown)
  · obtain ⟨own, hin, hown⟩ := hpart hn
    obtain ⟨own', hin', hown'⟩ := hown.enclosed hm
    obtain ⟨part, -, hcovers, hwhole⟩ := hown.covers
    obtain ⟨part', hpart', hcovers', -⟩ := hown'.covers
    rw [hwhole hplain] at hcovers
    exact horder.within (hin.trans hfront) hcovers (hpart'.isInfix.trans hin') hcovers'
  · obtain ⟨own, hin, hown⟩ := hpart hb
    exact hown.stmts_apart (hapart hin)
  · simpa [List.pairwise_map, Node.span] using hspells.apart (hapart hall)

/-! A group in a sum: its span is that of the parentheses. -/

section Sample

private def sampleSpan (start stop : Nat) : Span := ⟨"a.own", start, stop⟩

private def sampleGroup : Surface.Expr := .mk (.number 1) (sampleSpan 13 16)

private def sampleSum : Surface.Expr :=
  .mk (.binary .add sampleGroup (.mk (.path [⟨"a", sampleSpan 17 18⟩] []) (sampleSpan 17 18))) (sampleSpan 13 18)

private def sampleReturn : Surface.Stmt := .mk (.ret (some sampleSum)) (sampleSpan 7 19)

private def sampleBody : Surface.Block := .mk [sampleReturn] (sampleSpan 6 20)

private def sampleFn : Surface.FnDecl where
  name := ⟨"f", sampleSpan 3 4⟩
  kind := .plain
  params := []
  variadic := false
  returns := none
  body := some sampleBody
  span := sampleSpan 0 20

private def sampleItem : Surface.Item := ⟨.function sampleFn, [], sampleSpan 0 20⟩

private def sampleFile : Surface.Module := ⟨"a.own", ⟨"main", sampleSpan 0 0⟩, [], [sampleItem]⟩

theorem parse_spans_nest_group :
    parse "a.own" "fn f(){return(1)+a;}" = .ok sampleFile ∧ sampleFile.Part (.expr sampleGroup) ∧
      (sampleSpan 13 16).Within (sampleSpan 13 18) := by
  have hparse : parse "a.own" "fn f(){return(1)+a;}" = .ok sampleFile := by cbv
  have hitem : sampleFile.Part (.item sampleItem) := .item (List.mem_singleton_self _)
  have hfn : sampleFile.Part (.function sampleFn) := hitem.child (List.mem_singleton_self _)
  have hbody : sampleFile.Part (.block sampleBody) := hfn.child (List.mem_singleton_self _)
  have hreturn : sampleFile.Part (.stmt sampleReturn) := hbody.child (List.mem_singleton_self _)
  have hsum : sampleFile.Part (.expr sampleSum) := hreturn.child (List.mem_singleton_self _)
  obtain ⟨tokens, -, -, -, hwithin, -⟩ := parse_spans_nest hparse
  exact ⟨hparse, hsum.child List.mem_cons_self, hwithin _ _ hsum rfl (.child List.mem_cons_self)⟩

end Sample

end OwnLang
