import OwnLang.Proofs.Grammar.ReadsExpr

/-!
# Reading statements back

One rule for each form of a statement and for blocks, over readers that read back what stands inside.
`ReadsNodes.step` adds them to the rules of types and expressions, and `readsNodes_rule` says it of the
grammar itself: it reads back everything that has a spelling, however long.
-/

namespace OwnLang.Grammar

open Surface Parse
open TokenKind (sign)

/-! ## What it is to be read back -/

section Back

variable (sub : Readers)

/-- A statement is read back in front of everything but an `else`. -/
def ReadsStmt (s : Stmt) : Prop :=
  ∀ rest, headKind rest ≠ some .kwElse → Reads (sub .stmt) s.print rest fun s' : Stmt => s'.bare = s.bare

/-- A block is read back. -/
def ReadsBlock (b : Block) : Prop := ∀ rest, Reads sub.wholeBlock b.print rest fun b' => b'.bare = b.bare

end Back

variable {sub : Readers} {text rest : List BareToken}

/-! ## Parts that may be missing -/

theorem reads_writtenType {type : Option TypeExpr} (h : ∀ t ∈ type, ReadsType sub t)
    (hrest : Heads endsType rest) :
    Reads ( typeAnnotation sub) (printWrittenType type) rest
      fun type' => type'.map TypeExpr.bare = type.map TypeExpr.bare := by
  cases type with
  | none =>
    refine (reads_eat_other (hrest.ne id)).last fun eaten heaten => ?_
    subst heaten
    exact reads_pure rfl
  | some t =>
    refine (reads_eat (t := sign .colon)).take fun eaten heaten => ?_
    subst heaten
    exact (h t rfl .lowest rest rfl hrest).map fun t' ht => congrArg some ht

theorem reads_initializer {value : Option Expr} (h : ∀ v ∈ value, ReadsExpr sub v) (hrest : Heads endsExpr rest) :
    Reads (initializer sub) (printInitializer value) rest
      fun value' => value'.map Expr.bare = value.map Expr.bare := by
  cases value with
  | none =>
    refine (reads_eat_other (hrest.ne id)).last fun eaten heaten => ?_
    subst heaten
    exact reads_pure rfl
  | some v =>
    refine (reads_eat (t := sign .assignment)).take fun eaten heaten => ?_
    subst heaten
    exact (h v rfl rest hrest).map fun v' hv => congrArg some hv

theorem reads_label {name : Option Ident} (hrest : headKind rest ≠ some .atSign) :
    Reads label (printLabel name) rest fun name' => name'.map Ident.bare = name.map Ident.bare := by
  cases name with
  | none =>
    refine (reads_eat_other hrest).last fun eaten heaten => ?_
    subst heaten
    exact reads_pure rfl
  | some name =>
    refine (reads_eat (t := sign .atSign)).take fun eaten heaten => ?_
    subst heaten
    exact (reads_ident name).map fun name' hname => congrArg some hname

/-- A part that may be missing in front of the token that closes it. -/
theorem reads_optionalBefore {α β γ : Type} {close : TokenKind} {part : Parse α} {x : Option β}
    {piece : β → List BareToken} (view : α → γ) (view' : β → γ) (hrest : headKind rest = some close)
    (hpiece : ∀ y ∈ x, Heads (· ≠ close) (piece y))
    (hpart : ∀ y ∈ x, Reads part (piece y) rest fun a => view a = view' y) :
    Reads (optionalBefore close part) ((x.map piece).getD []) rest fun a => a.map view = x.map view' := by
  cases x with
  | none =>
    refine reads_kind close ?_ ?_
    · exact hrest
    rw [if_pos rfl]
    exact reads_pure rfl
  | some y =>
    refine reads_kind_of ((hpiece y rfl).append rest) fun kind hkind => ?_
    rw [if_neg hkind]
    exact (hpart y rfl).map fun a ha => congrArg some ha

/-! ## Simple statements -/

/-- What a simple statement starts with. -/
def startsSimple (kind : TokenKind) : Prop := startsExpr kind ∨ kind = .kwVar ∨ kind = .kwConst

theorem heads_simple {kind : StmtKind} {span : Span} (hwf : kind.WellFormed) (h : (Stmt.mk kind span).IsSimple) :
    Heads startsSimple kind.printSimple := by
  cases kind with
  | decl d => exact heads_cons (by cases d.constant <;> simp [startsSimple, sign]) _
  | assign target op value => exact heads_cons (.inl trivial) _
  | expr value => exact (heads_expr hwf).imp fun kind hkind => .inl hkind
  | _ => exact h.elim

theorem isNone_of_map_eq {α β γ : Type} {f : α → γ} {g : β → γ} {x : Option α} {y : Option β}
    (h : x.map f = y.map g) : x.isNone = y.isNone := by
  rw [← Option.isNone_map (f := f), h, Option.isNone_map]

theorem reads_declaredName (name : Ident) :
    Reads declaredName [name.print] rest fun name' => name'.bare = name.bare := by
  refine reads_current.look fun token htoken => ?_
  rw [if_pos (show token.kind = .identifier from Option.some.inj htoken)]
  exact reads_ident name

theorem heads_initializer {value : Option Expr} (hrest : Heads endsExpr rest) :
    Heads endsType (printInitializer value ++ rest) := by
  cases value with
  | none => exact hrest.imp endsType_of_endsExpr
  | some value => exact heads_cons trivial _

theorem kind_of_declaration {token : Token} {constant : Bool}
    (h : token.bare = sign (if constant then .kwConst else .kwVar)) : (token.kind = .kwConst : Bool) = constant := by
  rw [show token.kind = if constant then .kwConst else .kwVar from congrArg Prod.fst h]
  cases constant <;> rfl

theorem reads_varDecl {d : VarDecl} (hwf : d.WellFormed) (htype : ∀ t ∈ d.type, ReadsType sub t)
    (hvalue : ∀ v ∈ d.value, ReadsExpr sub v) (hrest : Heads endsExpr rest) :
    Reads (varDecl sub) d.print rest fun d' => d'.bare = d.bare := by
  obtain ⟨name, constant, type, value⟩ := d
  refine reads_advance.take fun token htoken => ?_
  have hconstant : (token.kind = .kwConst : Bool) = constant := kind_of_declaration htoken
  refine (reads_declaredName name).take fun name' hname => ?_
  refine (reads_writtenType htype (heads_initializer hrest)).seq fun type' htype' => ?_
  refine (reads_initializer hvalue hrest).last fun value' hvalue' => ?_
  have hmissing : ¬(value.isNone && constant) = true ∧ ¬(value.isNone && type.isNone) = true := by
    cases value with
    | some value => simp
    | none =>
      obtain ⟨hvariable, htyped⟩ := hwf.2 rfl
      have hvariable : constant = false := hvariable
      have htyped : type ≠ none := htyped
      simp [hvariable, htyped]
  rw [hconstant, isNone_of_map_eq htype', isNone_of_map_eq hvalue', if_neg hmissing.1, if_neg hmissing.2]
  exact reads_pure (by simp [VarDecl.bare, hname, htype', hvalue'])

theorem assignmentOp?_ofAssignment (op : Option ArithmeticOp) : assignmentOp? (.ofAssignment op) = some op := by
  match op with
  | none => rfl
  | some ⟨.add, _⟩ | some ⟨.sub, _⟩ | some ⟨.mul, _⟩ | some ⟨.div, _⟩ | some ⟨.rem, _⟩ => rfl

theorem endsOperand_of_assignmentOp? {kind : TokenKind} {op : Option ArithmeticOp}
    (h : assignmentOp? kind = some op) : endsOperand kind := by
  cases kind <;> first | decide | cases h

theorem assignmentOp?_of_ends {kind : TokenKind} (h : endsExpr kind) : assignmentOp? kind = none := by
  cases kind <;> first | exact h.elim | rfl

theorem ReadsTerms.declParts {n : Nat} (h : ReadsTerms sub n) {d : VarDecl} (hwf : d.PartsWellFormed)
    (hlen : d.print.length ≤ n) : (∀ t ∈ d.type, ReadsType sub t) ∧ ∀ v ∈ d.value, ReadsExpr sub v := by
  obtain ⟨name, constant, type, value⟩ := d
  simp only [VarDecl.print, List.length_cons, List.length_append] at hlen
  constructor
  · rintro t ⟨⟩
    exact h.type t (hwf.1 t rfl) (by simp only [printWrittenType, List.length_cons] at hlen; omega)
  · rintro v ⟨⟩
    exact h.expr v (hwf.2 v rfl) (by simp only [printInitializer, List.length_cons] at hlen; omega)

/-- A simple statement, without its semicolon. -/
theorem reads_simpleStmt {n : Nat} (h : ReadsTerms sub n) {kind : StmtKind} {span : Span} (hwf : kind.WellFormed)
    (hsimple : (Stmt.mk kind span).IsSimple) (hlen : kind.printSimple.length ≤ n) (hrest : Heads endsExpr rest) :
    Reads (simpleStmt sub) kind.printSimple rest fun s => s.bare = .mk kind.bare .null := by
  refine reads_current.look fun start hstart => ?_
  cases kind with
  | decl d =>
    have hkind : start.kind = .kwVar ∨ start.kind = .kwConst := by
      have : start.kind = if d.constant then .kwConst else .kwVar := Option.some.inj hstart
      cases hconstant : d.constant <;> simp [this, hconstant]
    rw [if_pos hkind]
    obtain ⟨htype, hvalue⟩ := h.declParts hwf.1 hlen
    refine (reads_varDecl hwf htype hvalue hrest).last fun d' hd => reads_place _ fun span => ?_
    show Stmt.mk (.decl d'.bare) .null = .mk (.decl d.bare) .null
    rw [hd]
  | assign target op value =>
    have hkind : start.kind = .openParen := Option.some.inj hstart
    rw [if_neg (by simp [hkind])]
    simp only [StmtKind.printSimple, List.length_append, List.length_cons] at hlen
    have htarget := h.operand target hwf.1 (by omega)
    have hvalue := h.operand value hwf.2 (by omega)
    refine (htarget _ _ ⟨.ofAssignment op, rfl, endsOperand_of_assignmentOp? (assignmentOp?_ofAssignment op)⟩).seq fun target' htarget' => ?_
    refine reads_kind (.ofAssignment op) rfl ?_
    rw [assignmentOp?_ofAssignment]
    refine reads_advance.take fun _ _ => (hvalue _ _ (hrest.imp endsOperand_of_endsExpr)).last fun value' hvalue' => ?_
    refine reads_pure ?_
    show Stmt.mk (.assign target'.bare op value'.bare) .null = .mk (.assign target.bare op value.bare) .null
    rw [htarget', hvalue']
  | expr value =>
    obtain ⟨head, hhead, hstarts⟩ := (heads_expr hwf).append rest
    have hkind : start.kind = head := Option.some.inj (hstart.trans hhead)
    rw [if_neg (by rw [hkind]; rintro (rfl | rfl) <;> exact hstarts)]
    refine (h.expr value hwf hlen rest hrest).last fun value' hvalue => reads_kind_of hrest fun kind hends => ?_
    rw [assignmentOp?_of_ends hends]
    exact reads_pure (congrArg (fun value => Stmt.mk (.expr value) .null) hvalue)
  | _ => exact hsimple.elim

theorem print_simple {kind : StmtKind} {span : Span} (h : (Stmt.mk kind span).IsSimple) :
    kind.print = kind.printSimple ++ [sign .semicolon] := by
  cases kind with
  | decl d => rfl
  | assign target op value => simp [StmtKind.print, StmtKind.printSimple]
  | expr value => rfl
  | _ => exact h.elim

theorem reads_terminatedStmt {n : Nat} (h : ReadsTerms sub n) {kind : StmtKind} {span : Span}
    (hwf : kind.WellFormed) (hsimple : (Stmt.mk kind span).IsSimple) (hlen : kind.print.length ≤ n) :
    Reads (terminatedStmt sub) kind.print rest fun s => s.bare = .mk kind.bare .null := by
  rw [print_simple hsimple] at hlen ⊢
  rw [List.length_append] at hlen
  refine (reads_simpleStmt h hwf hsimple (by omega) (heads_cons trivial _)).seq fun s hs => ?_
  exact (reads_expect (t := sign .semicolon)).last fun _ _ => reads_pure hs

/-- The statement of a `for` loop's header, where there is one. -/
theorem reads_header {n : Nat} (h : ReadsTerms sub n) {s : Option Stmt} (close : TokenKind)
    (hwf : WellFormedHeader s) (hlen : (printHeader s).length ≤ n) (hclose : endsExpr close)
    (hrest : headKind rest = some close) :
    Reads (optionalBefore close (simpleStmt sub)) (printHeader s) rest
      fun s' => bareOptional s' = bareOptional s := by
  have hheader : printHeader s = (s.map fun s => s.kind.printSimple).getD [] := by cases s <;> rfl
  rw [hheader] at hlen ⊢
  refine (reads_optionalBefore Stmt.bare Stmt.bare hrest ?_ ?_).imp fun s' hs => by
    rwa [bareOptional_eq_map, bareOptional_eq_map]
  · rintro ⟨kind, span⟩ ⟨⟩
    refine (heads_simple hwf.1 hwf.2).imp fun kind hkind => ?_
    rintro rfl
    rcases hkind with hkind | rfl | rfl
    · exact not_startsExpr_of_endsExpr hclose hkind
    · exact hclose
    · exact hclose
  · rintro ⟨kind, span⟩ ⟨⟩
    exact reads_simpleStmt h hwf.1 hwf.2 hlen ⟨close, hrest, hclose⟩

/-- A value in front of a closing token, where there is one. -/
theorem reads_value {n : Nat} (h : ReadsTerms sub n) {value : Option Expr} (close : TokenKind)
    (hwf : ∀ v ∈ value, v.WellFormed) (hlen : (printValue value).length ≤ n) (hclose : endsExpr close)
    (hrest : headKind rest = some close) :
    Reads (optionalBefore close sub.wholeExpr) (printValue value) rest
      fun value' => value'.map Expr.bare = value.map Expr.bare := by
  have hvalue : printValue value = (value.map Expr.print).getD [] := by cases value <;> rfl
  rw [hvalue] at hlen ⊢
  refine reads_optionalBefore Expr.bare Expr.bare hrest ?_ ?_
  · intro v hv
    refine (heads_expr (hwf v hv)).imp fun kind hkind => ?_
    rintro rfl
    exact not_startsExpr_of_endsExpr hclose hkind
  · rintro v ⟨⟩
    exact h.expr v (hwf v rfl) hlen rest ⟨close, hrest, hclose⟩

/-- A condition in its parentheses, where there is one. -/
theorem reads_optionalCondition {n : Nat} (h : ReadsTerms sub n) {test : Option Expr} (close : TokenKind)
    (hwf : ∀ e ∈ test, e.WellFormed) (hlen : (printCondition test).length ≤ n) (hclose : endsExpr close)
    (hrest : headKind rest = some close) :
    Reads (optionalBefore close sub.wholeExpr) (printCondition test) rest
      fun test' => test'.map Expr.bare = test.map Expr.bare := by
  have htest : printCondition test = (test.map fun e => paren e.print).getD [] := by cases test <;> rfl
  rw [htest] at hlen ⊢
  refine reads_optionalBefore Expr.bare Expr.bare hrest ?_ ?_
  · rintro e -
    refine heads_cons ?_ _
    rintro rfl
    exact hclose
  · rintro e ⟨⟩
    exact h.operand e (hwf e rfl) hlen _ rest ⟨close, hrest, endsOperand_of_endsExpr _ hclose⟩

/-! ## Jumps and returns -/

theorem reads_returnStmt {n : Nat} (h : ReadsTerms sub n) {value : Option Expr} (hwf : ∀ v ∈ value, v.WellFormed)
    (hlen : (printValue value).length ≤ n) :
    Reads (returnStmt sub) (StmtKind.ret value).print rest fun s => s.bare = .mk (StmtKind.ret value).bare .null := by
  refine reads_advance.take fun start _ => (reads_value h .semicolon hwf hlen trivial rfl).seq fun value' hvalue => ?_
  refine (reads_expect (t := sign .semicolon)).last fun _ _ => reads_place _ fun span => ?_
  exact congrArg (fun value => Stmt.mk (.ret value) .null) hvalue

theorem reads_jumpStmt {node : Option Ident → StmtKind} {kind : TokenKind} {name : Option Ident} {bare : StmtKind}
    (hnode : ∀ name' : Option Ident, name'.map Ident.bare = name.map Ident.bare → (node name').bare = bare) :
    Reads (jumpStmt node) (sign kind :: (printLabel name ++ [sign .semicolon])) rest
      fun s => s.bare = .mk bare .null := by
  refine reads_advance.take fun start _ => (reads_label (by simp)).seq fun name' hname => ?_
  refine (reads_expect (t := sign .semicolon)).last fun _ _ => reads_place _ fun span => ?_
  exact congrArg (Stmt.mk · .null) (hnode name' hname)

/-! ## Statements with blocks -/

theorem reads_condition {test : Expr} (h : ReadsExpr sub test) :
    Reads (condition sub) (paren test.print) rest fun test' => test'.bare = test.bare := by
  refine (reads_expect (t := sign .openParen)).take fun _ _ => (h _ (heads_cons trivial _)).seq fun test' htest => ?_
  exact (reads_expect (t := sign .closeParen)).last fun _ _ => reads_pure htest

theorem reads_branch {test : Expr} {body : Block} (htest : ReadsExpr sub test) (hbody : ReadsBlock sub body) :
    Reads (branch sub) (paren test.print ++ body.print) rest
      fun branch' => (branch'.1.bare, branch'.2.bare) = (test.bare, body.bare) :=
  (reads_condition htest).seq fun test' htest' => (hbody rest).last fun body' hbody' =>
    reads_pure (by rw [htest', hbody'])

/-- A branch behind the first one. -/
def printElseIf (branch : Expr × Block) : List BareToken :=
  sign .kwElse :: sign .kwIf :: (paren branch.1.print ++ branch.2.print)

theorem printBranches_cons (branch : Expr × Block) (more : List (Expr × Block)) :
    printBranches (branch :: more) =
      sign .kwIf :: ((paren branch.1.print ++ branch.2.print) ++ more.flatMap printElseIf) := by
  induction more generalizing branch with
  | nil => simp [printBranches]
  | cons next more ih =>
    rw [printBranches, ih, List.flatMap_cons, printElseIf]
    simp

theorem headKind_block (b : Block) (rest : List BareToken) : headKind (b.print ++ rest) = some .openCurly := by
  cases b
  rfl

/-- A branch without places. -/
def bareBranch (b : Expr × Block) : Expr × Block := (b.1.bare, b.2.bare)

/-- The final branch as one piece behind its `else`, where there is one. -/
abbrev elsePieces (otherwise : Option Block) : List (List BareToken) :=
  (otherwise.map fun b => sign .kwElse :: b.print).toList

/-- What the loop over branches has left, and what it has read: the first of them, with the others and the final
branch left, or all and the final branch. -/
inductive BranchesRead (branch₀ : Expr × Block) (more : List (Expr × Block)) (otherwise : Option Block) :
    List (List BareToken) → List (Expr × Block) × Option Block → Prop
  | part {done todo branches : List (Expr × Block)} {pieces : List (List BareToken)} (split : more = done ++ todo)
    (left : pieces = todo.map printElseIf ++ elsePieces otherwise)
    (read : branches.reverse.map bareBranch = (branch₀ :: done).map bareBranch) :
    BranchesRead branch₀ more otherwise pieces (branches, none)
  | all {branches : List (Expr × Block)} {block block' : Block} (written : otherwise = some block)
    (read : branches.reverse.map bareBranch = (branch₀ :: more).map bareBranch) (same : block'.bare = block.bare) :
    BranchesRead branch₀ more otherwise [] (branches, some block')

section

variable {branch₀ : Expr × Block} {more : List (Expr × Block)} {otherwise : Option Block}

/-- The loop ends where nothing is left. -/
theorem BranchesRead.ends {state : List (Expr × Block) × Option Block} (h : BranchesRead branch₀ more otherwise [] state)
    (hrest : headKind rest ≠ some .kwElse) :
    (state.1.reverse.map bareBranch = (branch₀ :: more).map bareBranch ∧
      state.2.map Block.bare = otherwise.map Block.bare) ∧
      Reads (moreBranches.step sub state) [] rest (fun next => next = none) := by
  cases h with
  | @part done todo branches _ split left read =>
    obtain ⟨htodo, helse⟩ := List.append_eq_nil_iff.mp left.symm
    obtain rfl : todo = [] := by simpa using htodo
    obtain rfl : otherwise = none := by simpa using helse
    refine ⟨⟨by simpa [split] using read, rfl⟩, ?_⟩
    refine (reads_eat_other hrest).last fun eaten heaten => ?_
    subst heaten
    exact reads_pure rfl
  | all written read same => exact ⟨⟨read, by rw [written]; exact congrArg some same⟩, reads_pure rfl⟩

/-- A round of the loop takes a branch behind its `else`. -/
theorem reads_elseIf {b : Expr × Block} {done todo branches : List (Expr × Block)} {text : List BareToken}
    (hsplit : more = done ++ b :: todo) (hread : branches.reverse.map bareBranch = (branch₀ :: done).map bareBranch)
    (htest : ReadsExpr sub b.1) (hbody : ReadsBlock sub b.2) :
    Reads (moreBranches.step sub (branches, none)) (printElseIf b) text
      (fun next => ∃ state, next = some state ∧
        BranchesRead branch₀ more otherwise (todo.map printElseIf ++ elsePieces otherwise) state) := by
  refine (reads_eat (t := sign .kwElse)).take fun eaten heaten => ?_
  subst heaten
  refine (reads_eat (t := sign .kwIf)).take fun eaten heaten => ?_
  subst heaten
  refine (reads_branch htest hbody).last fun read hbranch => ?_
  replace hbranch : bareBranch read = bareBranch b := hbranch
  exact reads_pure ⟨_, rfl, .part (show more = done ++ [b] ++ todo by simp [hsplit]) rfl (by simp [hread, hbranch])⟩

/-- A round of the loop takes the final branch. -/
theorem reads_else {block : Block} {branches : List (Expr × Block)}
    (hread : branches.reverse.map bareBranch = (branch₀ :: more).map bareBranch) (hblock : ReadsBlock sub block) :
    Reads (moreBranches.step sub (branches, none)) (sign .kwElse :: block.print) rest
      (fun next => ∃ state, next = some state ∧ BranchesRead branch₀ more (some block) [] state) := by
  refine (reads_eat (t := sign .kwElse)).take fun eaten heaten => ?_
  subst heaten
  refine (reads_eat_other (by simp [headKind_block])).look fun eaten heaten => ?_
  subst heaten
  refine (hblock _).last fun block' hsame => ?_
  exact reads_pure ⟨_, rfl, .all rfl hread hsame⟩

/-- The branches behind the first one. -/
theorem reads_moreBranches {first : Expr × Block}
    (hfirst : (first.1.bare, first.2.bare) = (branch₀.1.bare, branch₀.2.bare))
    (hmore : ∀ b ∈ more, ReadsExpr sub b.1 ∧ ReadsBlock sub b.2) (hotherwise : ∀ b ∈ otherwise, ReadsBlock sub b)
    (hrest : headKind rest ≠ some .kwElse) :
    Reads (moreBranches sub first) (more.flatMap printElseIf ++ printOtherwise otherwise) rest
      fun read => bareBranches read.1 = bareBranches (branch₀ :: more) ∧
        bareOtherwise read.2 = bareOtherwise otherwise := by
  have hloop : Reads (iterate (moreBranches.step sub) ([first], none))
      (more.map printElseIf ++ elsePieces otherwise).flatten rest
      (fun state => state.1.reverse.map bareBranch = (branch₀ :: more).map bareBranch ∧
        state.2.map Block.bare = otherwise.map Block.bare) := by
    refine reads_iterate (I := BranchesRead branch₀ more otherwise) (fun _ h => h.ends hrest) ?_ ?_
      (.part (show more = [] ++ more from rfl) rfl (congrArg (fun b => [b]) hfirst))
    · rintro _ piece pieces (⟨hsplit, hleft, hread⟩ | _)
      rename_i done todo branches
      cases todo with
      | cons b todo =>
        cases hleft
        obtain ⟨htest, hbody⟩ := hmore b (by simp [hsplit])
        exact reads_elseIf hsplit hread htest hbody
      | nil =>
        cases otherwise with
        | none => cases hleft
        | some block =>
          cases hleft
          exact reads_else (by simpa [hsplit] using hread) (hotherwise block rfl)
    · intro piece hpiece
      rcases List.mem_append.mp hpiece with hpiece | hpiece
      · obtain ⟨b, -, rfl⟩ := List.mem_map.mp hpiece
        exact List.cons_ne_nil _ _
      · obtain ⟨b, -, rfl⟩ := by simpa using hpiece
        exact List.cons_ne_nil _ _
  have htext : (more.map printElseIf ++ elsePieces otherwise).flatten =
      more.flatMap printElseIf ++ printOtherwise otherwise := by
    cases otherwise <;> simp [List.flatMap_def, printOtherwise, elsePieces]
  rw [htext] at hloop
  refine hloop.last fun state hstate => reads_pure ?_
  rw [bareBranches_eq_map, bareBranches_eq_map, bareOtherwise_eq_map, bareOtherwise_eq_map]
  exact hstate

end

theorem reads_ifStmt {branch₀ : Expr × Block} {more : List (Expr × Block)} {otherwise : Option Block}
    (hbranches : ∀ b ∈ branch₀ :: more, ReadsExpr sub b.1 ∧ ReadsBlock sub b.2)
    (hotherwise : ∀ b ∈ otherwise, ReadsBlock sub b) (hrest : headKind rest ≠ some .kwElse) :
    Reads (ifStmt sub) (StmtKind.cond (branch₀ :: more) otherwise).print rest
      fun s => s.bare = .mk (StmtKind.cond (branch₀ :: more) otherwise).bare .null := by
  obtain ⟨hfirst, hmore⟩ := List.forall_mem_cons.mp hbranches
  rw [StmtKind.print, printBranches_cons, List.cons_append, List.append_assoc]
  refine reads_advance.take fun start _ => (reads_branch hfirst.1 hfirst.2).seq fun first hread => ?_
  refine (reads_moreBranches hread hmore hotherwise hrest).last fun read hread => reads_place _ fun span => ?_
  show Stmt.mk (.cond (bareBranches read.1) (bareOtherwise read.2)) .null = _
  rw [hread.1, hread.2]
  rfl

theorem reads_whileStmt {name : Option Ident} {test : Expr} {body : Block} (htest : ReadsExpr sub test)
    (hbody : ReadsBlock sub body) :
    Reads (whileStmt sub) (StmtKind.loop name test body).print rest
      fun s => s.bare = .mk (StmtKind.loop name test body).bare .null := by
  refine reads_advance.take fun start _ => (reads_label (by simp [paren])).seq fun name' hname => ?_
  refine (reads_condition htest).seq fun test' htest' => (hbody rest).last fun body' hbody' => ?_
  refine reads_place _ fun span => ?_
  show Stmt.mk (.loop (name'.map Ident.bare) test'.bare body'.bare) .null = _
  rw [hname, htest', hbody']
  rfl

theorem reads_forStmt {n : Nat} (h : ReadsTerms sub n) {name : Option Ident} {init last : Option Stmt}
    {test : Option Expr} {body : Block} (hwf : (StmtKind.forLoop name init test last body).WellFormed)
    (hbody : ReadsBlock sub body) (hlen : (StmtKind.forLoop name init test last body).print.length ≤ n) :
    Reads (forStmt sub) (StmtKind.forLoop name init test last body).print rest
      fun s => s.bare = .mk (StmtKind.forLoop name init test last body).bare .null := by
  obtain ⟨hinit, htest, hlast, -⟩ := hwf
  simp only [StmtKind.print, paren, List.cons_append, List.append_assoc, List.nil_append, List.length_append,
    List.length_cons] at hlen ⊢
  refine reads_advance.take fun start _ => (reads_label (by simp)).seq fun name' hname => ?_
  refine (reads_expect (t := sign .openParen)).take fun _ _ => ?_
  refine (reads_header h .semicolon hinit (by omega) trivial rfl).seq fun init' hinit' => ?_
  refine (reads_expect (t := sign .semicolon)).take fun _ _ => ?_
  refine (reads_optionalCondition h .semicolon htest (by omega) trivial rfl).seq fun test' htest' => ?_
  refine (reads_expect (t := sign .semicolon)).take fun _ _ => ?_
  refine (reads_header h .closeParen hlast (by omega) trivial rfl).seq fun last' hlast' => ?_
  refine (reads_expect (t := sign .closeParen)).take fun _ _ => (hbody rest).last fun body' hbody' => ?_
  refine reads_place _ fun span => ?_
  show Stmt.mk (.forLoop (name'.map Ident.bare) (bareOptional init') (test'.map Expr.bare) (bareOptional last')
    body'.bare) .null = _
  rw [hname, hinit', htest', hlast', hbody']
  rfl

theorem reads_scopeStmt {b : Block} (h : ReadsBlock sub b) :
    Reads (scopeStmt sub) b.print rest fun s => s.bare = .mk (StmtKind.scope b).bare .null :=
  (h rest).last fun _ hb => reads_pure (congrArg (fun b => Stmt.mk (.scope b) .null) hb)

/-! ## Blocks -/

/-- What a statement starts with. -/
def startsStmt (kind : TokenKind) : Prop := kind ≠ .closeCurly ∧ kind ≠ .eof ∧ kind ≠ .kwElse

theorem startsStmt_of_simple {kind : TokenKind} (h : startsSimple kind) : startsStmt kind := by
  rcases h with h | rfl | rfl
  · cases kind <;> first | exact h.elim | (refine ⟨?_, ?_, ?_⟩ <;> decide)
  · refine ⟨?_, ?_, ?_⟩ <;> decide
  · refine ⟨?_, ?_, ?_⟩ <;> decide

theorem heads_stmt {s : Stmt} (hwf : s.WellFormed) : Heads startsStmt s.print := by
  obtain ⟨kind, span⟩ := s
  by_cases hsimple : (Stmt.mk kind span).IsSimple
  · rw [Stmt.print, print_simple hsimple]
    exact ((heads_simple hwf hsimple).imp fun _ => startsStmt_of_simple).append _
  · cases kind with
    | decl d => exact absurd trivial hsimple
    | assign target op value => exact absurd trivial hsimple
    | expr value => exact absurd trivial hsimple
    | cond branches otherwise =>
      cases branches with
      | nil => exact absurd rfl hwf.1
      | cons branch more =>
        rw [Stmt.print, StmtKind.print, printBranches_cons]
        exact ⟨.kwIf, rfl, by decide, by decide, by decide⟩
    | scope b =>
      cases b
      exact ⟨.openCurly, rfl, by decide, by decide, by decide⟩
    | ret value => exact ⟨.kwReturn, rfl, by decide, by decide, by decide⟩
    | brk name => exact ⟨.kwBreak, rfl, by decide, by decide, by decide⟩
    | cont name => exact ⟨.kwContinue, rfl, by decide, by decide, by decide⟩
    | loop name test body => exact ⟨.kwWhile, rfl, by decide, by decide, by decide⟩
    | forLoop name init test last body => exact ⟨.kwFor, rfl, by decide, by decide, by decide⟩

theorem reads_block {stmts : List Stmt} (hwf : ∀ s ∈ stmts, s.WellFormed) (h : ∀ s ∈ stmts, ReadsStmt sub s) :
    Reads (block sub) (curly (printStmts stmts)) rest fun b => b.bare = .mk (bareStmts stmts) .null := by
  refine (reads_expect (t := sign .openCurly)).take fun start _ => ?_
  rw [printStmts_eq_flatMap]
  refine (reads_collect Stmt.bare Stmt.bare (fun s hs => (heads_stmt (hwf s hs)).ne_nil)
    (fun done s todo hsplit => ?_) ?_).seq fun stmts' hstmts => ?_
  · have hs : s ∈ stmts := by simp [hsplit]
    refine reads_kind_of ((heads_stmt (hwf s hs)).append _) fun kind hkind => ?_
    have hnext : headKind (todo.flatMap Stmt.print ++ sign .closeCurly :: rest) ≠ some .kwElse := by
      cases todo with
      | nil => simp
      | cons next todo =>
        rw [List.flatMap_cons, List.append_assoc]
        exact ((heads_stmt (hwf next (by simp [hsplit]))).append _).ne fun hne => hne.2.2 rfl
    have hread := (h s hs _ hnext).map (g := some) (R := fun next => ∃ a, next = some a ∧ a.bare = s.bare)
      fun a ha => ⟨a, rfl, ha⟩
    split
    · exact absurd rfl hkind.1
    · exact absurd rfl hkind.2.1
    · exact hread
  · exact reads_kind .closeCurly rfl (reads_pure rfl)
  · refine (reads_expect (t := sign .closeCurly)).last fun _ _ => reads_place _ fun span => ?_
    show Block.mk (bareStmts stmts') .null = _
    rw [bareStmts_eq_map, hstmts, bareStmts_eq_map]

/-! ## All forms -/

/-- The readers `sub` read back every type, expression and block of at most `n` tokens, and every
statement of less. -/
structure ReadsNodes (sub : Readers) (n : Nat) : Prop where
  terms : ReadsTerms sub n
  stmt : ∀ s : Stmt, s.WellFormed → s.print.length < n → ReadsStmt sub s
  block : ∀ b : Block, b.WellFormed → b.print.length ≤ n → ReadsBlock sub b

theorem length_le_flatMap {α : Type} {l : List α} {a : α} (h : a ∈ l) (f : α → List BareToken) :
    (f a).length ≤ (l.flatMap f).length := by
  rw [List.flatMap_def]
  exact (List.sublist_flatten_of_mem (List.mem_map_of_mem h)).length_le

theorem length_branch_lt {branches : List (Expr × Block)} {b : Expr × Block} (h : b ∈ branches) :
    (paren b.1.print).length + b.2.print.length < (printBranches branches).length := by
  cases branches with
  | nil => cases h
  | cons first more =>
    simp only [printBranches_cons, List.length_cons, List.length_append]
    rcases List.mem_cons.mp h with rfl | h
    · omega
    · have hle := length_le_flatMap h printElseIf
      simp only [printElseIf, List.length_cons, List.length_append] at hle
      omega

namespace ReadsNodes

variable {n : Nat}

theorem readsStmt (h : ReadsNodes sub n) {s : Stmt} (hwf : s.WellFormed) (hlen : s.print.length < n + 1) :
    ReadsStmt (step sub) s := by
  intro rest hrest
  obtain ⟨kind, span⟩ := s
  by_cases hsimple : (Stmt.mk kind span).IsSimple
  · have hhead : Heads startsSimple (kind.print ++ rest) := by
      rw [print_simple hsimple]
      exact ((heads_simple hwf hsimple).append _).append _
    have hread : Reads (terminatedStmt sub) kind.print rest _ :=
      reads_terminatedStmt h.terms hwf hsimple (Nat.le_of_lt_succ hlen)
    refine reads_kind_of hhead fun head hstarts => ?_
    split <;> first | exact hread | (rcases hstarts with hstarts | hstarts | hstarts <;> cases hstarts)
  · cases kind with
    | decl d => exact absurd trivial hsimple
    | assign target op value => exact absurd trivial hsimple
    | expr value => exact absurd trivial hsimple
    | ret value =>
      simp only [Stmt.print, StmtKind.print, List.length_cons, List.length_append] at hlen
      exact reads_kind .kwReturn rfl (reads_returnStmt h.terms hwf (by omega))
    | brk name => exact reads_kind .kwBreak rfl (reads_jumpStmt fun name' hname => congrArg StmtKind.brk hname)
    | cont name => exact reads_kind .kwContinue rfl (reads_jumpStmt fun name' hname => congrArg StmtKind.cont hname)
    | cond branches otherwise =>
      obtain ⟨hne, hwfs, hwfo⟩ := hwf
      simp only [Stmt.print, StmtKind.print, List.length_append] at hlen
      have hbranches : ∀ b ∈ branches, ReadsExpr sub b.1 ∧ ReadsBlock sub b.2 := by
        intro b hb
        have hlt := length_branch_lt hb
        obtain ⟨htest, hbody⟩ := (wellFormedBranches_iff branches).mp hwfs b hb
        rw [length_paren] at hlt
        exact ⟨h.terms.expr b.1 htest (by omega), h.block b.2 hbody (by omega)⟩
      have hotherwise : ∀ b ∈ otherwise, ReadsBlock sub b := by
        rintro b ⟨⟩
        exact h.block b hwfo (by simp only [printOtherwise, List.length_cons] at hlen; omega)
      cases branches with
      | nil => exact absurd rfl hne
      | cons first more =>
        refine reads_kind .kwIf ?_ (reads_ifStmt hbranches hotherwise hrest)
        rw [Stmt.print, StmtKind.print, printBranches_cons]
        rfl
    | loop name test body =>
      simp only [Stmt.print, StmtKind.print, List.length_cons, List.length_append, length_paren] at hlen
      exact reads_kind .kwWhile rfl
        (reads_whileStmt (h.terms.expr test hwf.1 (by omega)) (h.block body hwf.2 (by omega)))
    | forLoop name init test last body =>
      have hbody : body.print.length ≤ n := by
        simp only [Stmt.print, StmtKind.print, List.length_cons, List.length_append] at hlen
        omega
      exact reads_kind .kwFor rfl
        (reads_forStmt h.terms hwf (h.block body hwf.2.2.2 hbody) (Nat.le_of_lt_succ hlen))
    | scope b =>
      exact reads_kind .openCurly (headKind_block b rest) (reads_scopeStmt (h.block b hwf (Nat.le_of_lt_succ hlen)))

theorem readsBlock (h : ReadsNodes sub n) {b : Block} (hwf : b.WellFormed) (hlen : b.print.length ≤ n + 1) :
    ReadsBlock (step sub) b := by
  intro rest
  obtain ⟨stmts, span⟩ := b
  have hwfs := (wellFormedStmts_iff stmts).mp hwf
  refine reads_block hwfs fun s hs => h.stmt s (hwfs s hs) ?_
  have hle := length_le_flatMap hs Stmt.print
  rw [Block.print, length_curly, printStmts_eq_flatMap] at hlen
  omega

/-- One more step of the grammar reads back nodes with one more token. -/
theorem step (h : ReadsNodes sub n) : ReadsNodes (Grammar.step sub) (n + 1) where
  terms := h.terms.step
  stmt _ hwf hlen := h.readsStmt hwf hlen
  block _ hwf hlen := h.readsBlock hwf hlen

end ReadsNodes

/-- Nothing that has a spelling is spelled by no token. -/
theorem readsNodes_zero (sub : Readers) : ReadsNodes sub 0 where
  terms :=
    { expr := fun e hwf hlen => absurd (List.length_pos_of_ne_nil (heads_expr hwf).ne_nil) (by omega)
      operand := fun e _ hlen => absurd hlen (by simp)
      type := fun t hwf hlen => absurd (List.length_pos_of_ne_nil (heads_type hwf).ne_nil) (by omega)
      inner := fun t _ hlen => absurd hlen (by simp) }
  stmt := fun s _ hlen => absurd hlen (Nat.not_lt_zero _)
  block := fun b _ hlen => by
    cases b
    exact absurd hlen (by simp [Block.print])

theorem readsNodes_rulesTo (n : Nat) : ReadsNodes (rulesTo n) n := by
  induction n with
  | zero => exact readsNodes_zero _
  | succ n ih => exact ih.step

/-- The grammar is as deep as a text has tokens. -/
theorem reads_rule {r : Rule} {Q : r.Node → Prop} (h : ∀ n, text.length < n → Reads (rulesTo n r) text rest Q) :
    Reads (rule r) text rest Q := by
  intro hrest c hc
  have hlength : c.remaining + 1 = text.length + rest.length := by
    rw [← c.length_ahead, hc, List.length_append]
  have hrestpos := List.length_pos_of_ne_nil hrest
  exact h (depthFor c.remaining) (by unfold depthFor; omega) hrest c hc

/-- The grammar reads back nodes of every length. -/
theorem readsNodes_rule (n : Nat) : ReadsNodes rule n where
  terms :=
    { expr := fun e hwf _ rest hrest => reads_rule fun n hn =>
        (readsNodes_rulesTo n).terms.expr e hwf hn.le rest hrest
      operand := fun e hwf _ power rest hrest => reads_rule fun n hn =>
        (readsNodes_rulesTo n).terms.operand e hwf hn.le power rest hrest
      type := fun t hwf _ power rest hpower hrest => reads_rule fun n hn =>
        (readsNodes_rulesTo n).terms.type t hwf hn.le power rest hpower hrest
      inner := fun t hwf _ power rest hrest => reads_rule fun n hn =>
        (readsNodes_rulesTo n).terms.inner t hwf hn.le power rest hrest }
  stmt := fun s hwf _ rest hrest => reads_rule fun n hn => (readsNodes_rulesTo n).stmt s hwf hn rest hrest
  block := fun b hwf _ rest => reads_rule fun n hn => (readsNodes_rulesTo n).block b hwf hn.le rest

end OwnLang.Grammar
