import Mathlib
import OwnLang.Compile
import OwnLang.Proofs.Check.Registered

/-!
# The names of files that were read

An identifier is a word of the text (`worded_tokenize`), and reading moves over the tokens of a text without
changing them (`Parse.Moves`). So the names of declarations, packages and imports are words
(`worded_parse`).
-/

namespace OwnLang

open Surface (Ident)

/-! ## Tokens -/

/-- An identifier is a word. -/
def Token.Worded (t : Token) : Prop := t.kind = .identifier → IsWord t.value

/-- The identifiers among tokens are words. -/
def Token.AllWorded (tokens : List Token) : Prop := ∀ t ∈ tokens, t.Worded

theorem worded_first? {c : Char} {rest : List Char} {kind : TokenKind} {value : String} {n : Nat}
    (h : Lexeme.first? c rest = some (.token kind value, n)) (hkind : kind = .identifier) :
    IsWord value := by
  unfold Lexeme.first? at h
  split at h
  · rename_i hstarts
    simp only [Option.some.injEq, Prod.mk.injEq, Lexeme.token.injEq] at h
    obtain ⟨⟨-, rfl⟩, -⟩ := h
    exact ⟨c, _, String.toList_ofList, hstarts, fun x hx => List.mem_takeWhile_imp hx⟩
  subst hkind
  split at h
  · cases h
  split at h
  · cases h
  split at h
  · obtain ⟨body, -, hbody⟩ := Option.map_eq_some_iff.mp h
    cases hbody
  rcases Option.or_eq_some_iff.mp h with hcomment | ⟨-, hpunctuation⟩
  · unfold Lexeme.comment? at hcomment
    split at hcomment
    · cases hcomment
    · obtain ⟨_, -, hgap⟩ := Option.map_eq_some_iff.mp hcomment
      cases hgap
    · cases hcomment
  · obtain ⟨⟨spelling, kind⟩, hfound, hsame⟩ := Option.map_eq_some_iff.mp hpunctuation
    have hnone : ∀ p ∈ TokenKind.punctuation, p.2 ≠ .identifier := by decide
    simp only [Prod.mk.injEq, Lexeme.token.injEq] at hsame
    exact absurd hsame.1.1 (hnone _ (List.mem_of_find?_eq_some hfound))

theorem worded_tokensFrom {file : String} {offset : Nat} {text : List Char} {tokens : List Token}
    (h : tokensFrom file offset text = .ok tokens) : ∀ t ∈ tokens, t.Worded := by
  induction offset, text using tokensFrom.induct generalizing tokens with
  | case1 offset =>
    unfold tokensFrom at h
    cases h
    rintro t ht hkind
    rw [List.mem_singleton.mp ht] at hkind
    cases hkind
  | case2 offset c rest hnone =>
    unfold tokensFrom at h
    simp only [hnone] at h
    cases h
  | case3 offset c rest n stop hfirst =>
    rename_i ih
    unfold tokensFrom at h
    simp only [hfirst] at h
    exact ih h
  | case4 offset c rest n stop kind value hfirst =>
    rename_i ih
    unfold tokensFrom at h
    simp only [hfirst] at h
    cases hrest : tokensFrom file (offset + byteWidth (c :: rest.take n)) (rest.drop n) with
    | error d =>
      rw [hrest] at h
      cases h
    | ok more =>
      rw [hrest] at h
      cases h
      exact List.forall_mem_cons.mpr ⟨worded_first? hfirst, ih hrest⟩

/-- The identifiers of a text are words. -/
theorem worded_tokenize {text file : String} {tokens : List Token}
    (h : tokenize text file = .ok tokens) : ∀ t ∈ tokens, t.Worded := worded_tokensFrom h

namespace Cursor

theorem tokens_next (c : Cursor) : c.next.tokens = c.tokens := by
  obtain ⟨before, current, _ | ⟨t, rest⟩⟩ := c
  · rfl
  · simp [next, tokens]

theorem current_mem (c : Cursor) : c.current ∈ c.tokens := by simp [tokens]

/-- A cursor moves on to another one, token by token. -/
abbrev Leads : Cursor → Cursor → Prop := Relation.ReflTransGen fun c d => d = c.next

theorem leads_next (c : Cursor) : c.Leads c.next := .single rfl

theorem Leads.tokens {c d : Cursor} (h : c.Leads d) : d.tokens = c.tokens := by
  induction h with
  | refl => rfl
  | tail _ hstep ih =>
    subst hstep
    exact (tokens_next _).trans ih

end Cursor

/-! ## Readers -/

namespace Parse

variable {α β : Type}

/-- A reader moves over the tokens of a text, whether it succeeds or fails. -/
class Moves (x : Parse α) : Prop where
  moves : ∀ {c a d}, x c = .ok a d → c.Leads d
  fails : ∀ {c e d}, x c = .error e d → c.Leads d

/-- What a reader makes of a text with certain tokens. -/
def Makes (I : List Token → Prop) (Q : α → Prop) (x : Parse α) : Prop :=
  ∀ ⦃c a d⦄, x c = .ok a d → I c.tokens → Q a

instance (a : α) : Moves (pure a : Parse α) := ⟨fun h => (by cases h; exact .refl), fun h => (by cases h)⟩

instance : Moves (get : Parse Cursor) := ⟨fun h => (by cases h; exact .refl), fun h => (by cases h)⟩

instance (cause : Cause) (span : Span) : Moves (Run.reject cause span : Parse α) :=
  ⟨fun h => (by cases h), fun h => (by cases h; exact .refl)⟩

instance (why : Stop) : Moves (Run.stop why : Parse α) := ⟨fun h => (by cases h), fun h => (by cases h)⟩

instance (message : String) : Moves (unexpected message : Parse α) :=
  ⟨fun h => (by cases h), fun h => (by cases h; exact .refl)⟩

instance {x : Parse α} {f : α → Parse β} [hx : Moves x] [hf : ∀ a, Moves (f a)] :
    Moves (x >>= f) where
  moves h := by
    obtain ⟨a, d, ha, hb⟩ := Run.bind_eq_ok.mp h
    exact (hx.moves ha).trans ((hf a).moves hb)
  fails h := by
    rcases Run.bind_eq_error.mp h with ha | ⟨a, d, ha, hb⟩
    · exact hx.fails ha
    · exact (hx.moves ha).trans ((hf a).fails hb)

instance {x : Parse α} [Moves x] (f : α → β) : Moves (f <$> x) := by
  rw [map_eq_pure_bind]
  infer_instance

instance {p : Prop} [Decidable p] {x y : Parse α} [hx : Moves x] [hy : Moves y] :
    Moves (if p then x else y) := by
  split
  · exact hx
  · exact hy

theorem moves_bind {x : Parse α} {f : α → Parse β} (hx : Moves x) (hf : ∀ a, Moves (f a)) :
    Moves (x >>= f) := inferInstance

instance : Moves current := by
  unfold current
  infer_instance

instance : Moves kind := by
  unfold kind
  infer_instance

instance (n : Nat) : Moves (peek n) := by
  unfold peek
  infer_instance

instance (start : Span) : Moves (spanFrom start) := by
  unfold spanFrom
  infer_instance

instance : Moves advance :=
  ⟨fun h => (by cases h; exact Cursor.leads_next _), fun h => (by cases h)⟩

instance (kind : TokenKind) : Moves (expect kind) where
  moves h := by
    unfold expect at h
    split at h
    · cases h
      exact Cursor.leads_next _
    · cases h
  fails h := by
    unfold expect at h
    split at h
    · cases h
    · cases h
      exact .refl

instance (kind : TokenKind) : Moves (eat kind) where
  moves h := by
    unfold eat at h
    split at h
    · cases h
      exact Cursor.leads_next _
    · cases h
      exact .refl
  fails h := by
    unfold eat at h
    split at h <;> cases h

instance : Moves ident := by
  unfold ident
  infer_instance

theorem moves_iterateAtMost {step : α → Parse (Option α)} (h : ∀ a, Moves (step a)) (n : Nat) (a : α) :
    Moves (iterateAtMost step n a) := by
  induction n generalizing a with
  | zero => exact inferInstanceAs (Moves (Run.stop _))
  | succ n ih =>
    unfold iterateAtMost
    refine moves_bind (h a) fun b => ?_
    cases b with
    | none => infer_instance
    | some b => exact ih b

instance {step : α → Parse (Option α)} [h : ∀ a, Moves (step a)] (a : α) : Moves (iterate step a) := by
  unfold iterate
  exact moves_bind inferInstance fun c => moves_iterateAtMost h _ a

instance {item : Parse (Option α)} [Moves item] : Moves (collect item) := by
  unfold collect
  infer_instance

instance {close : TokenKind} {item : Parse α} [Moves item] (s : List α × Bool) :
    Moves (commaList.step close item s) := by
  unfold commaList.step
  split <;> infer_instance

instance {close : TokenKind} {item : Parse α} [Moves item] : Moves (commaList close item) := by
  unfold commaList
  infer_instance

instance {item : Parse α} [Moves item] (s : List α × Bool × Bool) : Moves (parameters.step item s) := by
  unfold parameters.step
  split <;> infer_instance

instance {item : Parse α} [Moves item] : Moves (parameters item) := by
  unfold parameters
  infer_instance

instance {item : Parse α} [Moves item] : Moves (commaSeparated item) := by
  unfold commaSeparated
  infer_instance

instance {reader : Parse α} [h : Moves reader] (accept : Cursor → Bool) :
    Moves (speculate reader accept) where
  moves {c a d} hrun := by
    unfold speculate at hrun
    cases hreader : reader c with
    | ok b e =>
      simp only [hreader] at hrun
      split at hrun
      · cases hrun
        exact h.moves hreader
      · cases hrun
        rfl
    | error diagnostic e =>
      simp only [hreader] at hrun
      cases hrun
      rfl
    | stopped why =>
      simp only [hreader] at hrun
      cases hrun
  fails {c e d} hrun := by
    -- a trial that fails is taken back
    unfold speculate at hrun
    cases hreader : reader c with
    | ok b c₁ =>
      simp only [hreader] at hrun
      split at hrun <;> cases hrun
    | error diagnostic c₁ =>
      simp only [hreader] at hrun
      cases hrun
    | stopped why =>
      simp only [hreader] at hrun
      cases hrun

end Parse

/-! ## Rules -/

namespace Grammar

open Parse

instance : Moves pathRest := by
  unfold pathRest
  infer_instance

instance : Moves path := by
  unfold path
  infer_instance

instance : Moves label := by
  unfold label
  infer_instance

instance : Moves declaredName := by
  unfold declaredName
  infer_instance

instance : Moves number := by
  unfold number
  infer_instance

instance (node : Token → Surface.ExprKind) : Moves (leaf node) := by
  unfold leaf
  infer_instance

instance (base : Surface.Expr) : Moves (member base) := by
  unfold member
  infer_instance

instance (node : Option Ident → Surface.StmtKind) : Moves (jumpStmt node) := by
  unfold jumpStmt
  infer_instance

instance {α : Type} (close : TokenKind) (part : Parse α) [Moves part] :
    Moves (optionalBefore close part) := by
  unfold optionalBefore
  infer_instance

section

variable (sub : Readers) [hsub : ∀ rule, Moves (sub rule)]

/-! ### Types -/

instance : Moves (typeArguments sub) := by
  unfold typeArguments
  infer_instance

instance : Moves (namedType sub) := by
  unfold namedType
  infer_instance

instance (constant : Bool) : Moves (pointerType sub constant) := by
  unfold pointerType
  infer_instance

instance : Moves (constType sub) := by
  unfold constType
  refine moves_bind inferInstance fun start => moves_bind inferInstance fun kind => ?_
  split
  · infer_instance
  · infer_instance
  · refine moves_bind inferInstance fun inner => ?_
    split <;> infer_instance

instance : Moves (parenthesisedType sub) := by
  unfold parenthesisedType
  refine moves_bind inferInstance fun start => moves_bind inferInstance fun (params, variadic) =>
    moves_bind inferInstance fun returning => ?_
  split
  · infer_instance
  · split <;> infer_instance

instance (element : Surface.TypeExpr) : Moves (arraySuffix sub element) := by
  unfold arraySuffix
  infer_instance

instance : Moves (typeOperand sub) := by
  unfold typeOperand
  refine moves_bind inferInstance fun kind => ?_
  split <;> infer_instance

instance (power : Power) : Moves (type sub power) := by
  unfold type
  infer_instance

/-! ### Expressions -/

instance : Moves (templateArguments sub) := by
  unfold templateArguments
  infer_instance

instance : Moves (arguments sub) := by
  unfold arguments
  infer_instance

instance (type : Surface.TypeExpr) (heap : Bool) : Moves (structFields sub type heap) := by
  unfold structFields
  infer_instance

instance : Moves (named sub) := by
  unfold named
  infer_instance

instance (node : Surface.Expr → Surface.ExprKind) : Moves (prefixed sub node) := by
  unfold prefixed
  infer_instance

instance : Moves (reference sub) := by
  unfold reference
  infer_instance

instance : Moves (parenthesised sub) := by
  unfold parenthesised
  infer_instance

instance (heap : Bool) : Moves (array sub heap) := by
  unfold array
  refine moves_bind inferInstance fun start => moves_bind inferInstance fun closing => ?_
  extract_lets +onlyGivenNames behind
  have hbehind (size : Option Surface.Expr) : Moves (behind size) := by
    refine moves_bind inferInstance fun _ => moves_bind inferInstance fun element =>
      moves_bind inferInstance fun _ => ?_
    cases size <;> infer_instance
  clear_value behind
  infer_instance

instance (start : Span) : Moves (allocated sub start) := by
  unfold allocated
  refine moves_bind inferInstance fun kind => ?_
  split
  · infer_instance
  · exact moves_bind inferInstance fun type => inferInstance

instance : Moves (allocation sub) := by
  unfold allocation
  infer_instance

instance : Moves (operand sub) := by
  unfold operand
  refine moves_bind inferInstance fun kind => ?_
  split <;> infer_instance

instance (op : Surface.BinaryOp) (left : Surface.Expr) : Moves (binary sub op left) := by
  unfold binary
  infer_instance

instance (callee : Surface.Expr) : Moves (call sub callee) := by
  unfold call
  infer_instance

instance (base : Surface.Expr) : Moves (index sub base) := by
  unfold index
  infer_instance

theorem moves_operator? {kind : TokenKind} {power : Power} {extend : Surface.Expr → Parse Surface.Expr}
    (h : operator? sub kind = some (power, extend)) (left : Surface.Expr) : Moves (extend left) := by
  unfold operator? at h
  split at h
  · cases h
    infer_instance
  · cases h
    infer_instance
  · cases h
    infer_instance
  · obtain ⟨op, -, hop⟩ := Option.map_eq_some_iff.mp h
    cases hop
    infer_instance

instance moves_operatorStep (power : Power) (left : Surface.Expr) : Moves (do
    match operator? sub (← kind) with
    | some (own, extend) => if own.tighter power then some <$> extend left else return none
    | none => return none : Parse (Option Surface.Expr)) := by
  refine moves_bind inferInstance fun kind => ?_
  split
  · rename_i hoperator
    have := moves_operator? sub hoperator left
    infer_instance
  · infer_instance

instance (power : Power) : Moves (expr sub power) := by
  unfold expr
  infer_instance

/-! ### Statements -/

instance : Moves ( typeAnnotation sub) := by
  unfold typeAnnotation
  infer_instance

instance : Moves (initializer sub) := by
  unfold initializer
  infer_instance

instance : Moves (varDecl sub) := by
  unfold varDecl
  infer_instance

instance : Moves (simpleStmt sub) := by
  unfold simpleStmt
  refine moves_bind inferInstance fun start => ?_
  split
  · infer_instance
  · refine moves_bind inferInstance fun target => moves_bind inferInstance fun kind => ?_
    split <;> infer_instance

instance : Moves (terminatedStmt sub) := by
  unfold terminatedStmt
  infer_instance

instance moves_blockItem : Moves (do
    match ← kind with
    | .closeCurly => return none
    | .eof => unexpected "expected `\x7d`"
    | _ => some <$> sub .stmt : Parse (Option Surface.Stmt)) := by
  refine moves_bind inferInstance fun kind => ?_
  split <;> infer_instance

instance : Moves (block sub) := by
  unfold block
  infer_instance

instance : Moves (condition sub) := by
  unfold condition
  infer_instance

instance : Moves (branch sub) := by
  unfold branch
  infer_instance

instance (s : List (Surface.Expr × Surface.Block) × Option Surface.Block) :
    Moves (moreBranches.step sub s) := by
  unfold moreBranches.step
  split <;> infer_instance

instance (first : Surface.Expr × Surface.Block) : Moves (moreBranches sub first) := by
  unfold moreBranches
  infer_instance

instance : Moves (ifStmt sub) := by
  unfold ifStmt
  infer_instance

instance : Moves (whileStmt sub) := by
  unfold whileStmt
  infer_instance

instance : Moves (forStmt sub) := by
  unfold forStmt
  exact moves_bind inferInstance fun start => moves_bind inferInstance fun name =>
    moves_bind inferInstance fun _ => moves_bind inferInstance fun init => inferInstance

instance : Moves (returnStmt sub) := by
  unfold returnStmt
  infer_instance

instance : Moves (scopeStmt sub) := by
  unfold scopeStmt
  infer_instance

instance : Moves (stmt sub) := by
  unfold stmt
  refine moves_bind inferInstance fun kind => ?_
  split <;> infer_instance

theorem moves_step (r : Rule) : Moves (step sub r) := by
  cases r with
  | expr power => exact inferInstanceAs (Moves (expr sub power))
  | type power => exact inferInstanceAs (Moves (type sub power))
  | stmt => exact inferInstanceAs (Moves (stmt sub))
  | block => exact inferInstanceAs (Moves (block sub))

end

theorem moves_rulesTo (n : Nat) (r : Rule) : Moves (rulesTo n r) := by
  induction n generalizing r with
  | zero => exact inferInstanceAs (Moves (Run.stop _))
  | succ n ih => exact moves_step (rulesTo n) r

instance (r : Rule) : Moves (rule r) := by
  unfold rule
  exact moves_bind inferInstance fun c => moves_rulesTo _ r

/-! ### Declarations -/

section

variable (sub : Readers) [hsub : ∀ rule, Moves (sub rule)]

instance : Moves (fnBody sub) := by
  unfold fnBody
  infer_instance

instance : Moves (param sub) := by
  unfold param
  infer_instance

instance (kind : Surface.FnKind) : Moves (fnDecl sub kind) := by
  unfold fnDecl
  exact moves_bind inferInstance fun start => moves_bind inferInstance fun name =>
    moves_bind inferInstance fun _ => moves_bind inferInstance fun params => inferInstance

instance : Moves (field sub) := by
  unfold field
  refine moves_bind inferInstance fun start => moves_bind inferInstance fun name =>
    moves_bind inferInstance fun type => moves_bind inferInstance fun value => ?_
  infer_instance

instance : Moves (structPart sub) := by
  unfold structPart
  refine moves_bind inferInstance fun kind => moves_bind inferInstance fun second => ?_
  split <;> infer_instance

instance : Moves (structDecl sub) := by
  unfold structDecl
  exact moves_bind inferInstance fun _ => moves_bind inferInstance fun name =>
    moves_bind inferInstance fun _ => moves_bind inferInstance fun parts => inferInstance

instance : Moves (macroParam sub) := by
  unfold macroParam
  infer_instance

instance : Moves (macroDecl sub) := by
  unfold macroDecl
  infer_instance

instance : Moves templateParams := by
  unfold templateParams
  infer_instance

instance : Moves (itemKind sub) := by
  unfold itemKind
  refine moves_bind inferInstance fun kind => ?_
  split <;> infer_instance

instance : Moves (item sub) := by
  unfold item
  infer_instance

instance : Moves package := by
  unfold package
  infer_instance

instance : Moves imports := by
  unfold imports
  infer_instance

end

end Grammar

/-! ## What is made of a text -/

namespace Parse

variable {α β : Type} {I : List Token → Prop} {Q : α → Prop} {R : β → Prop}

theorem makes_pure {a : α} (h : Q a) : Makes I Q (pure a : Parse α) := by
  intro c b d hrun _
  cases hrun
  exact h

theorem Makes.bind {x : Parse α} {f : α → Parse β} [hmoves : Moves x] (hx : Makes I Q x)
    (hf : ∀ a, Q a → Makes I R (f a)) : Makes I R (x >>= f) := by
  intro c b e hrun hc
  obtain ⟨a, d, ha, hb⟩ := Run.bind_eq_ok.mp hrun
  exact hf a (hx ha hc) hb ((hmoves.moves ha).tokens ▸ hc)

theorem makes_any (x : Parse α) : Makes I (fun _ => True) x := fun _ _ _ _ _ => trivial

/-- A step whose result does not matter. -/
theorem makes_seq {x : Parse α} {f : α → Parse β} [Moves x] (hf : ∀ a, Makes I R (f a)) :
    Makes I R (x >>= f) := (makes_any x).bind fun a _ => hf a

theorem Makes.map {x : Parse α} {f : α → β} (hx : Makes I Q x) (hf : ∀ a, Q a → R (f a)) :
    Makes I R (f <$> x) := by
  intro c b d hrun hc
  obtain ⟨a, ha, rfl⟩ := Run.map_eq_ok.mp hrun
  exact hf a (hx ha hc)

theorem makes_unexpected (message : String) : Makes I Q (unexpected message : Parse α) := by
  intro c a d hrun
  cases hrun

theorem makes_reject_bind (cause : Cause) (span : Span) (f : β → Parse α) :
    Makes I Q (Run.reject cause span >>= f) := by
  intro c a d hrun
  cases hrun

theorem makes_ident : Makes Token.AllWorded (fun name => IsWord name.name) ident := by
  intro c name d hrun hc
  obtain ⟨token, e, htoken, hpure⟩ := Run.bind_eq_ok.mp hrun
  cases hpure
  unfold expect at htoken
  split at htoken
  · rename_i hkind
    cases htoken
    exact hc _ (Cursor.current_mem _) hkind
  · cases htoken

theorem makes_iterateAtMost {step : α → Parse (Option α)} [hmoves : ∀ a, Moves (step a)]
    (h : ∀ a, Q a → Makes I (fun next => ∀ b, next = some b → Q b) (step a)) (n : Nat) {a : α}
    (ha : Q a) :
    Makes I Q (iterateAtMost step n a) := by
  induction n generalizing a with
  | zero =>
    intro c b d hrun
    cases hrun
  | succ n ih =>
    refine (h a ha).bind fun next hnext => ?_
    cases next with
    | none => exact makes_pure ha
    | some b => exact ih (hnext b rfl)

/-- What is said of every item holds of all that are read. -/
theorem makes_collect {item : Parse (Option α)} [Moves item]
    (h : Makes I (fun next => ∀ a, next = some a → Q a) item) :
    Makes I (fun l => ∀ a ∈ l, Q a) (collect item) := by
  refine .bind (Q := fun l => ∀ a ∈ l, Q a) (makes_seq fun c => ?_) fun l hl =>
    makes_pure fun a ha => hl a (List.mem_reverse.mp ha)
  refine makes_iterateAtMost (fun l hl => h.bind fun next hnext => makes_pure ?_) _ (List.forall_mem_nil _)
  intro l' hl'
  obtain ⟨a, ha, rfl⟩ := Option.map_eq_some_iff.mp hl'
  exact List.forall_mem_cons.mpr ⟨hnext a ha, hl⟩

end Parse

namespace Grammar

open Parse

section

variable {I : List Token → Prop} (sub : Readers) [hsub : ∀ rule, Moves (sub rule)]

/-! ### Functions and declarations -/

/-- What is said of the fields and of the functions of a struct, said of a part of its body. -/
def StructPart.Holds (F : Surface.VarDecl → Prop) (P : Surface.FnDecl → Prop) : StructPart → Prop
  | .field decl => F decl
  | .method decl => P decl

omit hsub in
theorem makes_structPart {F : Surface.VarDecl → Prop} {P : Surface.FnDecl → Prop}
    (hfield : Makes I F (field sub)) (h : ∀ kind, Makes I P (fnDecl sub kind)) :
    Makes I (StructPart.Holds F P) (structPart sub) := by
  have hmethod (kind : Surface.FnKind) : Makes I (StructPart.Holds F P)
      (StructPart.method <$> fnDecl sub kind) := (h kind).map fun _ hdecl => hdecl
  have hfield : Makes I (StructPart.Holds F P) (StructPart.field <$> field sub) :=
    hfield.map fun _ hdecl => hdecl
  refine makes_seq fun kind => makes_seq fun second => ?_
  split
  · exact hmethod .method
  · exact makes_seq fun _ => hmethod .constMethod
  · exact makes_seq fun _ => hmethod .static
  · exact hfield
  · exact hfield
  · exact makes_unexpected _

/-- What is said of every field and of every function holds of those of a struct. -/
theorem makes_structDecl {F : Surface.VarDecl → Prop} {P : Surface.FnDecl → Prop} {R : Ident → Prop}
    (hname : Makes I R ident) (hfield : Makes I F (field sub))
    (h : ∀ kind, Makes I P (fnDecl sub kind)) :
    Makes I (fun decl => R decl.name ∧ (∀ field ∈ decl.fields, F field) ∧
      ∀ method ∈ decl.methods, P method) (structDecl sub) := by
  have hpart : Makes I (fun next => ∀ part, next = some part → part.Holds F P) (do
        if (← kind) = .closeCurly then return none else some <$> structPart sub) := by
    refine makes_seq fun kind => ?_
    split
    · exact makes_pure fun _ hnone => by cases hnone
    · refine (makes_structPart sub hfield h).map fun part hpart part' hsame => ?_
      cases hsame
      exact hpart
  refine makes_seq fun _ => hname.bind fun name hname => makes_seq fun _ =>
    (makes_collect hpart).bind fun parts hparts => makes_seq fun _ => makes_pure ⟨hname, ?_, ?_⟩
  · intro field hfield
    obtain ⟨part, hin, hsame⟩ := List.mem_filterMap.mp hfield
    cases part with
    | method decl => cases hsame
    | field decl =>
      cases hsame
      exact hparts _ hin
  · intro method hmethod
    obtain ⟨part, hin, hsame⟩ := List.mem_filterMap.mp hmethod
    cases part with
    | field decl => cases hsame
    | method decl =>
      cases hsame
      exact hparts _ hin

theorem makes_item {Q : Surface.ItemKind → Prop} (h : Makes I Q (itemKind sub)) :
    Makes I (fun item => Q item.kind) (item sub) := by
  refine makes_seq fun start => makes_seq fun template => h.bind fun kind hkind =>
    makes_seq fun span => ?_
  split
  · exact makes_reject_bind _ _ _
  · exact makes_pure hkind

/-- What is said of every declaration holds of the declarations of a file. -/
theorem makes_file {Q : Surface.ItemKind → Prop} {R : Ident → Prop} {S : List Ident → Prop}
    (hpackage : Makes I R package) (himports : Makes I S imports) (h : Makes I Q (itemKind sub))
    (name : String) : Makes I
      (fun file => R file.package ∧ S file.imports ∧ ∀ item ∈ file.items, Q item.kind)
      (file sub name) := by
  have hitem : Makes I (fun next => ∀ item, next = some item → Q item.kind) (do
      if (← get).hasTokens then some <$> item sub else return none) := by
    refine makes_seq fun c => ?_
    split
    · refine (makes_item sub h).map fun item hitem item' hsame => ?_
      cases hsame
      exact hitem
    · exact makes_pure fun _ hnone => by cases hnone
  exact hpackage.bind fun package hpackage => himports.bind fun imports himports =>
    (makes_collect hitem).bind fun items hitems => makes_pure ⟨hpackage, himports, hitems⟩

/-! ### Names -/

theorem makes_name (kind : Surface.FnKind) :
    Makes Token.AllWorded (fun decl => IsWord decl.name.name) (fnDecl sub kind) :=
  makes_seq fun _ => makes_ident.bind fun _ hname => makes_seq fun _ => makes_seq fun _ =>
    makes_seq fun _ => makes_seq fun _ => makes_seq fun _ => makes_pure hname

theorem makes_varName : Makes Token.AllWorded (fun decl => IsWord decl.name.name) (varDecl sub) := by
  have hname : Makes Token.AllWorded (fun name => IsWord name.name) declaredName := by
    refine makes_seq fun token => ?_
    split
    · exact makes_ident
    · exact makes_unexpected _
  refine makes_seq fun _ => hname.bind fun _ hname => makes_seq fun _ => makes_seq fun _ => ?_
  split
  · exact makes_unexpected _
  · split
    · exact makes_unexpected _
    · exact makes_pure hname

theorem makes_itemName : Makes Token.AllWorded Surface.ItemKind.Worded (itemKind sub) := by
  refine makes_seq fun kind => ?_
  split
  · exact (makes_name sub .plain).map fun _ h => h
  · exact (makes_structDecl sub makes_ident (makes_any _) (makes_name sub)).map fun _ h => ⟨h.1, h.2.2⟩
  · exact (makes_varName sub).bind fun _ h => makes_seq fun _ => makes_pure h
  · exact (makes_varName sub).bind fun _ h => makes_seq fun _ => makes_pure h
  · exact makes_seq fun _ => makes_seq fun _ => makes_seq fun _ => makes_seq fun _ => makes_seq fun _ =>
      makes_pure trivial
  · exact (makes_any _).map fun _ _ => trivial
  · exact makes_unexpected _

theorem makes_fieldName : Makes Token.AllWorded (fun decl => IsWord decl.name.name) (field sub) := by
  refine makes_seq fun _ => makes_ident.bind fun _ hname => makes_seq fun _ => makes_seq fun _ => ?_
  dsimp only
  split
  · exact makes_seq fun _ => makes_seq fun _ => makes_pure hname
  · exact makes_seq fun _ => makes_pure hname

theorem makes_macroName : Makes Token.AllWorded (fun decl => IsWord decl.name.name) (macroDecl sub) :=
  makes_seq fun _ => makes_ident.bind fun _ hname => makes_seq fun _ => makes_seq fun _ =>
    makes_seq fun _ => makes_seq fun _ => makes_pure hname

theorem makes_legible : Makes Token.AllWorded Surface.ItemKind.Legible (itemKind sub) := by
  refine makes_seq fun kind => ?_
  split
  · exact (makes_any _).map fun _ _ => trivial
  · exact (makes_structDecl sub makes_ident (makes_fieldName sub) fun _ => makes_any _).map
      fun _ h => ⟨h.1, h.2.1⟩
  · exact makes_seq fun _ => makes_seq fun _ => makes_pure trivial
  · exact makes_seq fun _ => makes_seq fun _ => makes_pure trivial
  · exact makes_seq fun _ => makes_seq fun _ => makes_seq fun _ => makes_seq fun _ => makes_seq fun _ =>
      makes_pure trivial
  · exact (makes_macroName sub).map fun _ h => h
  · exact makes_unexpected _

theorem makes_package : Makes Token.AllWorded (fun name => IsWord name.name) package := by
  refine makes_seq fun written => ?_
  split
  · exact makes_ident.bind fun name hname => makes_seq fun _ => makes_pure hname
  · exact makes_seq fun first => makes_pure ⟨'m', ['a', 'i', 'n'], by simp, by decide,
      List.all_eq_true.mp (by decide)⟩

theorem makes_imports :
    Makes Token.AllWorded (fun names => ∀ name ∈ names, IsWord name.name) imports := by
  refine makes_collect (makes_seq fun written => ?_)
  split
  · refine makes_ident.bind fun name hname => makes_seq fun _ => makes_pure fun name' hsame => ?_
    cases hsame
    exact hname
  · exact makes_pure fun _ hnone => by cases hnone

end

end Grammar

/-- A file is read from the first of its tokens on. -/
theorem parse_eq_ok {name text : String} {file : Surface.Module} (h : parse name text = .ok file) :
    ∃ t rest d, tokenize text name = .ok (t :: rest) ∧
      Grammar.file Grammar.rule name ⟨[], t, rest⟩ = .ok file d := by
  unfold parse at h
  cases hread : tokenize text name with
  | error d =>
    rw [hread] at h
    cases h
  | ok tokens =>
    rw [hread] at h
    cases tokens with
    | nil => cases h
    | cons t rest =>
      cases hrun : Grammar.file Grammar.rule name ⟨[], t, rest⟩ with
      | ok read d =>
        have hsame : Outcome.result (.ok read d) = .ok file := hrun ▸ h
        cases hsame
        exact ⟨t, rest, d, rfl, hrun⟩
      | error d e =>
        have hsame : Outcome.result (.error d e : Outcome Cursor Surface.Module) = .ok file := hrun ▸ h
        cases hsame
      | stopped why =>
        have hsame : Outcome.result (.stopped why : Outcome Cursor Surface.Module) = .ok file := hrun ▸ h
        cases hsame

/-- What is made of the tokens of a text is made of the text. -/
theorem Parse.Makes.parse {I : List Token → Prop} {Q : Surface.Module → Prop} {name text : String}
    {file : Surface.Module} (hfile : Parse.Makes I Q (Grammar.file Grammar.rule name))
    (htokens : ∀ tokens, tokenize text name = .ok tokens → I tokens) (h : OwnLang.parse name text = .ok file) :
    Q file := by
  obtain ⟨t, rest, d, hread, hrun⟩ := parse_eq_ok h
  exact hfile hrun (htokens _ hread)

/-- The names of a file that was read are words. -/
theorem worded_parse {name text : String} {file : Surface.Module} (h : parse name text = .ok file) :
    file.Worded := by
  obtain ⟨hpackage, himports, hitems⟩ := (Grammar.makes_file Grammar.rule Grammar.makes_package
    Grammar.makes_imports (Grammar.makes_itemName Grammar.rule) name).parse
      (fun _ => worded_tokenize) h
  exact ⟨hpackage, himports, hitems⟩

/-- The names that the declarations of a file that was read are shown and called by are words. -/
theorem legible_parse {name text : String} {file : Surface.Module} (h : parse name text = .ok file) :
    ∀ item ∈ file.items, item.kind.Legible :=
  ((Grammar.makes_file Grammar.rule (Parse.makes_any _) (Parse.makes_any _)
    (Grammar.makes_legible Grammar.rule) name).parse (fun _ => worded_tokenize) h).2.2

/-- A file that was read from a text. -/
def Surface.Module.IsRead (file : Surface.Module) : Prop := ∃ name text, parse name text = .ok file

theorem isRead_parseProgram {options : Options} {files : List SourceFile} {modules : List Surface.Module}
    (h : parseProgram options files = .ok modules) : ∀ file ∈ modules, file.IsRead := by
  unfold parseProgram at h
  generalize (if options.includeStd then SourceFile.prelude :: files else files) = files at h
  induction files generalizing modules with
  | nil =>
    cases h
    exact List.forall_mem_nil _
  | cons file rest ih =>
    rw [List.mapM_cons] at h
    cases hfile : file.parse with
    | error why =>
      rw [hfile] at h
      cases h
    | ok read =>
      cases hrest : rest.mapM SourceFile.parse with
      | error why =>
        rw [hfile, hrest] at h
        cases h
      | ok others =>
        rw [hfile, hrest] at h
        cases h
        exact List.forall_mem_cons.mpr ⟨⟨file.name, file.text, hfile⟩, ih hrest⟩

/-- The names of the files of a program are words. -/
theorem worded_parseProgram {options : Options} {files : List SourceFile} {modules : List Surface.Module}
    (h : parseProgram options files = .ok modules) : ∀ file ∈ modules, file.Worded := by
  intro file hfile
  obtain ⟨name, text, hread⟩ := isRead_parseProgram h file hfile
  exact worded_parse hread

end OwnLang
