import Mathlib
import OwnLang.Proofs.Grammar.Places

/-!
# Files are arranged as they are written

The statements of a block stand behind its bracket, one behind the other, and the blocks of a statement
stand inside it, one behind the other (`Surface.Block.Arranged`). So it is in every file that was read
(`arranged_parse`).
-/

namespace OwnLang

/-! ## Statements and blocks -/

namespace Surface

/-- The blocks of a statement, the one that may stand last behind the others. -/
def StmtKind.blocks : StmtKind → List Block
  | .cond branches otherwise => branches.map (·.2) ++ otherwise.toList
  | .loop _ _ body | .forLoop _ _ _ _ body => [body]
  | .scope block => [block]
  | _ => []

/-- The statements in the header of a loop. -/
def StmtKind.header : StmtKind → List Stmt
  | .forLoop _ init _ step _ => init.toList ++ step.toList
  | _ => []

/-- The places of what stands right inside a statement. -/
def StmtKind.parts (kind : StmtKind) : List Span :=
  kind.header.map (·.span) ++ kind.blocks.map (·.span)

mutual

/-- A statement whose parts stand inside it, one behind the other. -/
inductive Stmt.Arranged : Stmt → Prop
  | intro {s : Stmt} (nonempty : s.span.start < s.span.stop) (parts : s.span.Ordered s.kind.parts)
    (header : ∀ t ∈ s.kind.header, t.Arranged) (blocks : ∀ b ∈ s.kind.blocks, b.Arranged) : s.Arranged

/-- A block whose statements stand behind its bracket, one behind the other. -/
inductive Block.Arranged : Block → Prop
  | intro {b : Block} (parts : b.span.tail.Ordered (b.stmts.map (·.span)))
    (stmts : ∀ s ∈ b.stmts, s.Arranged) : b.Arranged

end

/-- The body of a function is arranged, if it has one. -/
def FnDecl.Arranged (decl : FnDecl) : Prop := ∀ body, decl.body = some body → body.Arranged

/-- Where a function has no body, there are no statements. -/
theorem FnDecl.Arranged.stmts {decl : FnDecl} (h : decl.Arranged) :
    (∀ s ∈ (decl.body.map (·.stmts)).getD [], s.Arranged) ∧
      ((decl.body.map (·.span)).getD decl.span).tail.Ordered
        (((decl.body.map (·.stmts)).getD []).map (·.span)) := by
  cases hbody : decl.body with
  | none => exact ⟨List.forall_mem_nil _, Span.ordered_nil _⟩
  | some block =>
    cases h block hbody with
    | intro hparts hstmts => exact ⟨hstmts, hparts⟩

/-- The functions that a declaration introduces. -/
def ItemKind.functions : ItemKind → List FnDecl
  | .function decl => [decl]
  | .struct decl => decl.methods
  | _ => []

/-- The functions that a declaration introduces are arranged. -/
def ItemKind.Arranged (kind : ItemKind) : Prop := ∀ decl ∈ kind.functions, decl.Arranged

/-- The functions of a file are arranged. -/
def Module.Arranged (file : Module) : Prop := ∀ item ∈ file.items, item.kind.Arranged

end Surface

namespace Grammar

open Parse Cursor

/-- What nonterminals read stands where its tokens are. -/
structure Places (file : String) (sub : Readers) : Prop where
  expr : PlacesExprs file sub
  stmt : ∀ {c s d}, sub .stmt c = .ok s d → Token.InOrder file c.tokens →
    Between file c d s.span ∧ s.Arranged
  block : ∀ {c b d}, sub .block c = .ok b d → Token.InOrder file c.tokens →
    Between file c d b.span ∧ b.Arranged

/-! ## Statements -/

section

open Surface (Expr Stmt Block StmtKind)

variable {file : String} {sub : Readers} {c c₀ d : Cursor} {s : Stmt}

/-- Blocks in front of `c` and behind `start`, one behind the other. -/
structure Standing (file : String) (start : Nat) (c : Cursor) (blocks : List Block) : Prop where
  row : Row file start c (blocks.map (·.span))
  arranged : ∀ b ∈ blocks, b.Arranged

theorem standing_nil (hc : Token.InOrder file c.tokens) (hkind : c.kind ≠ .eof) :
    Standing file c.start c.next [] := ⟨.opened hc hkind (Nat.le_succ _), nofun⟩

theorem Standing.leads {start : Nat} {blocks : List Block} (h : Standing file start c blocks)
    (hcd : c.Leads d) : Standing file start d blocks := ⟨h.row.leads hcd, h.arranged⟩

/-- A statement without parts. -/
theorem arranged_plain (h : Between file c d s.span) (hheader : s.kind.header = [])
    (hblocks : s.kind.blocks = []) : Between file c d s.span ∧ s.Arranged := by
  refine ⟨h, h.nonempty, ?_, ?_, ?_⟩
  · unfold StmtKind.parts
    rw [hheader, hblocks]
    exact Span.ordered_nil _
  · rw [hheader]
    exact List.forall_mem_nil _
  · rw [hblocks]
    exact List.forall_mem_nil _

/-- A statement from its first token on, with the parts that stand behind that. -/
theorem arranged_parts {kind : StmtKind} (hc : Token.InOrder file c.tokens)
    (hspan : Between file c d (d.spanFrom c.current.span)) (hrow : Row file c.start d kind.parts)
    (hheader : ∀ t ∈ kind.header, t.Arranged) (hblocks : ∀ b ∈ kind.blocks, b.Arranged) :
    Between file c d (Stmt.mk kind (d.spanFrom c.current.span)).span ∧
      (Stmt.mk kind (d.spanFrom c.current.span)).Arranged :=
  ⟨hspan, hspan.nonempty, hrow.ordered.mono ⟨(hc.file _ c.current_mem).symm, le_rfl, le_rfl⟩, hheader,
    hblocks⟩

variable [hsub : ∀ rule, Moves (sub rule)] (hp : Places file sub)

theorem varDecl_leads {decl : Surface.VarDecl} (h : varDecl sub c = .ok decl d) : c.next.Leads d := by
  obtain ⟨_, _, hadvance, hrest⟩ := Run.bind_eq_ok.mp h
  cases hadvance
  exact Moves.moves hrest

include hp

theorem arranged_simpleStmt (h : simpleStmt sub c = .ok s d) (hc : Token.InOrder file c.tokens) :
    Between file c d s.span ∧ s.Arranged := by
  obtain ⟨start, c₁, hstart, hrest⟩ := Run.bind_eq_ok.mp h
  cases hstart
  split at hrest
  · rename_i hkind
    obtain ⟨decl, c₁, hdecl, hend⟩ := Run.bind_eq_ok.mp hrest
    cases hend
    have hfilled : c.kind ≠ .eof := by
      rcases hkind with hkind | hkind <;> exact fun heof => by cases heof.symm.trans hkind
    exact arranged_plain ((between_token hc hfilled).spanFrom
      ((varDecl_leads hdecl).le ((leads_next c).inOrder hc)).2) rfl rfl
  · obtain ⟨target, c₁, htarget, hbehind⟩ := Run.bind_eq_ok.mp hrest
    obtain ⟨kind, c₂, hkind, hassigned⟩ := Run.bind_eq_ok.mp hbehind
    obtain ⟨-, rfl⟩ := kind_eq_ok hkind
    have hbetween := hp.expr htarget hc
    have hc₂ := (Moves.moves htarget).inOrder hc
    cases hop : assignmentOp? kind with
    | none =>
      simp only [hop] at hassigned
      cases hassigned
      exact arranged_plain hbetween rfl rfl
    | some op =>
      simp only [hop] at hassigned
      obtain ⟨_, _, hadvance, hread⟩ := Run.bind_eq_ok.mp hassigned
      cases hadvance
      obtain ⟨value, c₃, hvalue, hend⟩ := Run.bind_eq_ok.mp hread
      cases hend
      have hnext := (leads_next c₂).inOrder hc₂
      exact arranged_plain ((hbetween.mono le_rfl (next_le hc₂).2).upTo hnext (hp.expr hvalue hnext))
        rfl rfl

theorem arranged_terminatedStmt (h : terminatedStmt sub c = .ok s d) (hc : Token.InOrder file c.tokens) :
    Between file c d s.span ∧ s.Arranged := by
  obtain ⟨stmt, c₁, hstmt, hrest⟩ := Run.bind_eq_ok.mp h
  obtain ⟨_, c₂, hsemicolon, hrest⟩ := Run.bind_eq_ok.mp hrest
  cases hrest
  obtain ⟨hbetween, harranged⟩ := arranged_simpleStmt hp hstmt hc
  exact ⟨hbetween.mono le_rfl ((Moves.moves hsemicolon).le ((Moves.moves hstmt).inOrder hc)).2, harranged⟩

/-- A block stands where its tokens are, and its statements behind its bracket. -/
theorem arranged_block {b : Block} (h : block sub c = .ok b d) (hc : Token.InOrder file c.tokens) :
    Between file c d b.span ∧ b.Arranged := by
  refine ⟨between_expect h hc (by decide) fun _ => closes_bind fun _ => closes_bind fun _ =>
    closes_spanFrom fun _ => rfl, ?_⟩
  obtain ⟨_, _, hopen, hrest⟩ := Run.bind_eq_ok.mp h
  obtain ⟨hkind, rfl, rfl⟩ := expect_eq_ok hopen
  obtain ⟨stmts, c₁, hstmts, hrest⟩ := Run.bind_eq_ok.mp hrest
  obtain ⟨_, c₂, hclose, hrest⟩ := Run.bind_eq_ok.mp hrest
  cases hrest
  have hfilled : c.kind ≠ .eof := by
    rw [hkind]
    decide
  have hrow : Row file (c.start + 1) c₁ (stmts.map (·.span)) ∧ ∀ s ∈ stmts, s.Arranged := by
    refine collect_induction (P := fun stmts c₁ =>
      Row file (c.start + 1) c₁ (stmts.map (·.span)) ∧ ∀ s ∈ stmts, s.Arranged)
      (fun {stmts next c₁ c₂} hstmts hitem => ?_) ⟨.opened hc hfilled le_rfl, nofun⟩ hstmts
    obtain ⟨kind, c₃, hkind, hread⟩ := Run.bind_eq_ok.mp hitem
    obtain ⟨-, rfl⟩ := kind_eq_ok hkind
    split at hread
    · cases hread
      simpa using hstmts
    · cases hread
    · obtain ⟨s, hs, rfl⟩ := Run.map_eq_ok.mp hread
      obtain ⟨hbetween, harranged⟩ := hp.stmt hs hstmts.1.tokens
      rw [Option.toList_some, List.map_append]
      exact ⟨hstmts.1.concat (Moves.moves hs) hbetween,
        List.forall_mem_append.mpr ⟨hstmts.2, List.forall_mem_singleton.mpr harranged⟩⟩
  have hbehind := hrow.1.leads (Moves.moves hclose)
  exact ⟨hbehind.ordered.mono ⟨(hc.file _ c.current_mem).symm, le_rfl, le_rfl⟩, hrow.2⟩

theorem Standing.block {start : Nat} {blocks : List Block} {b : Block}
    (hblocks : Standing file start c blocks) (h : sub.wholeBlock c = .ok b d) :
    Standing file start d (blocks ++ [b]) := by
  obtain ⟨hplace, harranged⟩ := hp.block h hblocks.row.tokens
  refine ⟨?_, List.forall_mem_append.mpr ⟨hblocks.arranged, List.forall_mem_singleton.mpr harranged⟩⟩
  rw [List.map_append]
  exact hblocks.row.concat (Moves.moves h) hplace

theorem Standing.branch {start : Nat} {blocks : List Block} {out : Expr × Block}
    (hblocks : Standing file start c blocks) (h : branch sub c = .ok out d) :
    Standing file start d (blocks ++ [out.2]) := by
  obtain ⟨test, c₁, htest, hbodied⟩ := Run.bind_eq_ok.mp h
  obtain ⟨body, c₂, hbody, hend⟩ := Run.bind_eq_ok.mp hbodied
  cases hend
  exact (hblocks.leads (Moves.moves htest)).block hp hbody

/-- The branches of an `if` stand in the order of the text, with the `else` behind them. -/
theorem standing_moreBranches {start : Nat} {first : Expr × Block} {branches : List (Expr × Block)}
    {otherwise : Option Block} (h : moreBranches sub first c = .ok (branches, otherwise) d)
    (hfirst : Standing file start c [first.2]) :
    Standing file start d (StmtKind.cond branches otherwise).blocks := by
  obtain ⟨⟨reversed, last⟩, c₁, hiterate, hend⟩ := Run.bind_eq_ok.mp h
  cases hend
  have hstart : Standing file start c (StmtKind.cond [first].reverse none).blocks := hfirst
  refine iterate_induction (P := fun (state : List (Expr × Block) × Option Block) c₁ =>
    Standing file start c₁ (StmtKind.cond state.1.reverse state.2).blocks)
    (fun {state next c₁ c₂} hstate hround => ?_) hstart hiterate
  obtain ⟨branches, _ | body⟩ := state
  · obtain ⟨behind, c₃, helse, hbehind⟩ := Run.bind_eq_ok.mp hround
    have hopen := hstate.leads (Moves.moves helse)
    cases behind with
    | false =>
      cases hbehind
      exact hopen
    | true =>
      obtain ⟨again, c₄, hif, hagain⟩ := Run.bind_eq_ok.mp hbehind
      have hopen := hopen.leads (Moves.moves hif)
      cases again with
      | true =>
        obtain ⟨more, c₅, hmore, hend⟩ := Run.bind_eq_ok.mp hagain
        cases hend
        simpa [StmtKind.blocks] using hopen.branch hp hmore
      | false =>
        obtain ⟨body, c₅, hbody, hend⟩ := Run.bind_eq_ok.mp hagain
        cases hend
        simpa [StmtKind.blocks] using hopen.block hp hbody
  · cases hround
    exact hstate

theorem arranged_ifStmt (h : ifStmt sub c = .ok s d) (hc : Token.InOrder file c.tokens)
    (hkind : c.kind ≠ .eof) : Between file c d s.span ∧ s.Arranged := by
  have hbetween : Between file c d s.span := between_advance h hc hkind fun _ =>
    closes_bind fun _ => closes_bind fun _ => closes_spanFrom fun _ => rfl
  obtain ⟨_, _, hadvance, hrest⟩ := Run.bind_eq_ok.mp h
  cases hadvance
  obtain ⟨first, c₁, hfirst, hmore⟩ := Run.bind_eq_ok.mp hrest
  obtain ⟨⟨branches, otherwise⟩, c₂, hbranches, hend⟩ := Run.bind_eq_ok.mp hmore
  cases hend
  have hblocks := standing_moreBranches hp hbranches ((standing_nil hc hkind).branch hp hfirst)
  exact arranged_parts hc hbetween hblocks.row nofun hblocks.arranged

theorem arranged_whileStmt (h : whileStmt sub c = .ok s d) (hc : Token.InOrder file c.tokens)
    (hkind : c.kind ≠ .eof) : Between file c d s.span ∧ s.Arranged := by
  have hbetween : Between file c d s.span := between_advance h hc hkind fun _ =>
    closes_bind fun _ => closes_bind fun _ => closes_bind fun _ => closes_spanFrom fun _ => rfl
  obtain ⟨_, _, hadvance, hlabelled⟩ := Run.bind_eq_ok.mp h
  cases hadvance
  obtain ⟨name, c₁, hname, htested⟩ := Run.bind_eq_ok.mp hlabelled
  obtain ⟨test, c₂, htest, hbodied⟩ := Run.bind_eq_ok.mp htested
  obtain ⟨body, c₃, hbody, hend⟩ := Run.bind_eq_ok.mp hbodied
  cases hend
  have hopened := ((standing_nil hc hkind).leads (Moves.moves hname)).leads (Moves.moves htest)
  have hblocks := hopened.block hp hbody
  exact arranged_parts hc hbetween hblocks.row nofun hblocks.arranged

/-- A statement in the header of a loop, if one is written there. -/
theorem row_optionalBefore {start : Nat} {parts : List Span} {close : TokenKind} {out : Option Stmt}
    (h : optionalBefore close (simpleStmt sub) c = .ok out d) (hrow : Row file start c parts) :
    Row file start d (parts ++ out.toList.map (·.span)) ∧ ∀ t ∈ out.toList, t.Arranged := by
  obtain ⟨kind, c₁, hkind, hread⟩ := Run.bind_eq_ok.mp h
  obtain ⟨-, rfl⟩ := kind_eq_ok hkind
  split at hread
  · cases hread
    simpa using hrow
  · obtain ⟨t, ht, rfl⟩ := Run.map_eq_ok.mp hread
    obtain ⟨hplace, harranged⟩ := arranged_simpleStmt hp ht hrow.tokens
    exact ⟨hrow.concat (Moves.moves ht) hplace, List.forall_mem_singleton.mpr harranged⟩

theorem arranged_forStmt (h : forStmt sub c = .ok s d) (hc : Token.InOrder file c.tokens)
    (hkind : c.kind ≠ .eof) : Between file c d s.span ∧ s.Arranged := by
  have hbetween : Between file c d s.span := between_advance h hc hkind fun _ =>
    closes_bind fun _ => closes_bind fun _ => closes_bind fun _ => closes_bind fun _ =>
      closes_bind fun _ => closes_bind fun _ => closes_bind fun _ => closes_bind fun _ =>
        closes_bind fun _ => closes_spanFrom fun _ => rfl
  obtain ⟨_, _, hadvance, hlabelled⟩ := Run.bind_eq_ok.mp h
  cases hadvance
  obtain ⟨name, c₁, hname, hopened⟩ := Run.bind_eq_ok.mp hlabelled
  obtain ⟨_, c₂, hopen, hheader⟩ := Run.bind_eq_ok.mp hopened
  obtain ⟨init, c₃, hinit, hrest₃⟩ := Run.bind_eq_ok.mp hheader
  obtain ⟨_, c₄, hsemicolon, hrest₄⟩ := Run.bind_eq_ok.mp hrest₃
  obtain ⟨test, c₅, htest, hrest₅⟩ := Run.bind_eq_ok.mp hrest₄
  obtain ⟨_, c₆, hsecond, hrest₆⟩ := Run.bind_eq_ok.mp hrest₅
  obtain ⟨step, c₇, hstep, hrest₇⟩ := Run.bind_eq_ok.mp hrest₆
  obtain ⟨_, c₈, hclose, hrest₈⟩ := Run.bind_eq_ok.mp hrest₇
  obtain ⟨body, c₉, hbody, hend⟩ := Run.bind_eq_ok.mp hrest₈
  cases hend
  have hopened : Row file c.start c₂ [] :=
    ((Row.opened hc hkind (Nat.le_succ _)).leads (Moves.moves hname)).leads (Moves.moves hopen)
  obtain ⟨hinitRow, hinitArranged⟩ := row_optionalBefore hp hinit hopened
  have htested := ((hinitRow.leads (Moves.moves hsemicolon)).leads (Moves.moves htest)).leads
    (Moves.moves hsecond)
  obtain ⟨hstepRow, hstepArranged⟩ := row_optionalBefore hp hstep htested
  have hheader := hstepRow.leads (Moves.moves hclose)
  obtain ⟨hplace, harranged⟩ := hp.block hbody hheader.tokens
  have hparts : Row file c.start d (StmtKind.forLoop name init test step body).parts := by
    simpa [StmtKind.parts, StmtKind.header, StmtKind.blocks] using
      hheader.concat (Moves.moves hbody) hplace
  exact arranged_parts hc hbetween hparts
    (List.forall_mem_append.mpr ⟨hinitArranged, hstepArranged⟩) (List.forall_mem_singleton.mpr harranged)

omit hp in
theorem arranged_jumpStmt {node : Option Surface.Ident → StmtKind} (h : jumpStmt node c = .ok s d)
    (hc : Token.InOrder file c.tokens) (hkind : c.kind ≠ .eof)
    (hnode : ∀ name, (node name).header = [] ∧ (node name).blocks = []) :
    Between file c d s.span ∧ s.Arranged := by
  have hbetween : Between file c d s.span := between_advance h hc hkind fun _ =>
    closes_bind fun _ => closes_bind fun _ => closes_spanFrom fun _ => rfl
  obtain ⟨_, _, hadvance, hlabelled⟩ := Run.bind_eq_ok.mp h
  cases hadvance
  obtain ⟨name, c₁, hname, hclosed⟩ := Run.bind_eq_ok.mp hlabelled
  obtain ⟨_, c₂, hsemicolon, hend⟩ := Run.bind_eq_ok.mp hclosed
  cases hend
  exact arranged_plain hbetween (hnode name).1 (hnode name).2

omit hp in
theorem arranged_returnStmt (h : returnStmt sub c = .ok s d) (hc : Token.InOrder file c.tokens)
    (hkind : c.kind ≠ .eof) : Between file c d s.span ∧ s.Arranged := by
  have hbetween : Between file c d s.span := between_advance h hc hkind fun _ =>
    closes_bind fun _ => closes_bind fun _ => closes_spanFrom fun _ => rfl
  obtain ⟨_, _, hadvance, hvalued⟩ := Run.bind_eq_ok.mp h
  cases hadvance
  obtain ⟨value, c₁, hvalue, hclosed⟩ := Run.bind_eq_ok.mp hvalued
  obtain ⟨_, c₂, hsemicolon, hend⟩ := Run.bind_eq_ok.mp hclosed
  cases hend
  exact arranged_plain hbetween rfl rfl

omit hsub in
theorem arranged_scopeStmt (h : scopeStmt sub c = .ok s d) (hc : Token.InOrder file c.tokens) :
    Between file c d s.span ∧ s.Arranged := by
  obtain ⟨inner, c₁, hinner, hend⟩ := Run.bind_eq_ok.mp h
  cases hend
  obtain ⟨hplace, harranged⟩ := hp.block hinner hc
  exact ⟨hplace, hplace.nonempty,
    ⟨List.forall_mem_singleton.mpr (.refl _), List.pairwise_singleton _ _⟩, nofun,
    List.forall_mem_singleton.mpr harranged⟩

/-- A statement stands where its tokens are, and its parts inside it. -/
theorem arranged_stmt (h : stmt sub c = .ok s d) (hc : Token.InOrder file c.tokens) :
    Between file c d s.span ∧ s.Arranged := by
  obtain ⟨kind, c₁, hread, hrest⟩ := Run.bind_eq_ok.mp h
  obtain ⟨hkind, rfl⟩ := kind_eq_ok hread
  have hfilled (hne : kind ≠ .eof) : c₁.kind ≠ .eof := hkind ▸ hne
  split at hrest
  · exact arranged_ifStmt hp hrest hc (hfilled (by decide))
  · exact arranged_whileStmt hp hrest hc (hfilled (by decide))
  · exact arranged_forStmt hp hrest hc (hfilled (by decide))
  · exact arranged_scopeStmt hp hrest hc
  · exact arranged_returnStmt hrest hc (hfilled (by decide))
  · exact arranged_jumpStmt hrest hc (hfilled (by decide)) fun _ => ⟨rfl, rfl⟩
  · exact arranged_jumpStmt hrest hc (hfilled (by decide)) fun _ => ⟨rfl, rfl⟩
  · exact arranged_terminatedStmt hp hrest hc

theorem Places.step : Places file (step sub) where
  expr _ _ _ _ h hc := between_expr hp.expr h hc
  stmt h hc := arranged_stmt hp h hc
  block h hc := arranged_block hp h hc

end

theorem places_rulesTo (file : String) (n : Nat) : Places file (rulesTo n) := by
  induction n with
  | zero =>
    refine ⟨fun _ _ _ _ h => ?_, fun h => ?_, fun h => ?_⟩
    all_goals cases h
  | succ n ih =>
    have := moves_rulesTo n
    exact ih.step

/-- Blocks of a text are arranged as they are written. -/
theorem makes_block (file : String) :
    Makes (Token.InOrder file) Surface.Block.Arranged rule.wholeBlock := by
  intro c b d h hc
  obtain ⟨_, _, hget, hrun⟩ := Run.bind_eq_ok.mp h
  cases hget
  exact ((places_rulesTo file _).block hrun hc).2

/-! ## Functions -/

section

variable {I : List Token → Prop} {sub : Readers} [hsub : ∀ rule, Moves (sub rule)]
  (hblock : Makes I Surface.Block.Arranged sub.wholeBlock)

include hblock

theorem makes_fnDecl (kind : Surface.FnKind) : Makes I Surface.FnDecl.Arranged (fnDecl sub kind) := by
  have hbody : Makes I (fun read => ∀ body, read = some body → body.Arranged) (fnBody sub) := by
    refine makes_seq fun missing => ?_
    split
    · exact makes_pure nofun
    · refine hblock.map fun block harranged body hsame => ?_
      cases hsame
      exact harranged
  exact makes_seq fun _ => makes_seq fun _ => makes_seq fun _ => makes_seq fun _ => makes_seq fun _ =>
    hbody.bind fun _ hbody => makes_seq fun _ => makes_pure hbody

theorem makes_itemKind : Makes I Surface.ItemKind.Arranged (itemKind sub) := by
  refine makes_seq fun kind => ?_
  split
  · exact (makes_fnDecl hblock .plain).map fun _ h => List.forall_mem_singleton.mpr h
  · exact (makes_structDecl sub (makes_any _) (makes_any _) (makes_fnDecl hblock)).map fun _ h => h.2.2
  · exact makes_seq fun _ => makes_seq fun _ => makes_pure (List.forall_mem_nil _)
  · exact makes_seq fun _ => makes_seq fun _ => makes_pure (List.forall_mem_nil _)
  · exact makes_seq fun _ => makes_seq fun _ => makes_seq fun _ => makes_seq fun _ => makes_seq fun _ =>
      makes_pure (List.forall_mem_nil _)
  · exact (makes_any _).map fun _ _ => List.forall_mem_nil _
  · exact makes_unexpected _

end

end Grammar

/-- The functions of a file that was read are arranged as they are written. -/
theorem arranged_parse {name text : String} {file : Surface.Module} (h : parse name text = .ok file) :
    file.Arranged :=
  ((Grammar.makes_file Grammar.rule (Parse.makes_any _) (Parse.makes_any _)
    (Grammar.makes_itemKind (Grammar.makes_block name)) name).parse (fun _ => inOrder_tokenize) h).2.2

end OwnLang
