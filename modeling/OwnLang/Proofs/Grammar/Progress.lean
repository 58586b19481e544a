import OwnLang.Proofs.Grammar.Places

/-!
# Reading makes progress and ends

On tokens that end with an `eof`, every reader answers: no bound on the nesting or on a repetition is ever
used up. Three things are said of a reader, each of them kept by putting readers together:

* `Parse.Moves`: it goes over the tokens, whether it succeeds or fails;
* `Parse.Takes`: where it succeeds, it has taken a token;
* `Parse.Coincide n`: in front of less than `n` tokens, two readers do the same, and do not stop.

A rule that takes a token before it refers to another one is the same for two families of readers in
front of one token more than these are (`coincide_step`, `coincide_step_step`). So the grammar is the same at
every depth that the tokens call for, and it satisfies its own equations (`rule_eq_step`).
-/

namespace OwnLang

/-! ## Ended tokens -/

/-- Tokens that end with an `eof`. -/
def Token.Ended (tokens : List Token) : Prop := ∃ front last, tokens = front ++ [last] ∧ last.kind = .eof

theorem Token.InOrder.ended {file : String} {tokens : List Token} (h : Token.InOrder file tokens) :
    Token.Ended tokens := h.ending

namespace Cursor

variable {c d : Cursor}

theorem length_tokens (c : Cursor) : c.tokens.length = c.index + c.remaining + 1 := by
  simp only [tokens, index, remaining, List.length_append, List.length_reverse, List.length_cons]
  omega

theorem remaining_next_le (c : Cursor) : c.next.remaining ≤ c.remaining := by
  obtain ⟨before, current, _ | ⟨t, after⟩⟩ := c
  · exact le_rfl
  · exact Nat.le_succ _

theorem Leads.remaining_le (h : c.Leads d) : d.remaining ≤ c.remaining := by
  induction h with
  | refl => exact le_rfl
  | tail _ hnext ih =>
    subst hnext
    exact (remaining_next_le _).trans ih

theorem Leads.ended (h : c.Leads d) (hc : Token.Ended c.tokens) : Token.Ended d.tokens := h.tokens.symm ▸ hc

/-- Only the `eof` at the end is left as it is. -/
theorem remaining_next_lt (hc : Token.Ended c.tokens) (hkind : c.kind ≠ .eof) :
    c.next.remaining < c.remaining := by
  obtain ⟨before, current, _ | ⟨t, after⟩⟩ := c
  · obtain ⟨front, last, htokens, hlast⟩ := hc
    obtain ⟨-, hsame⟩ := List.append_inj' htokens rfl
    cases hsame
    exact absurd hlast hkind
  · exact Nat.lt_succ_self _

end Cursor

namespace Parse

variable {α β : Type} {x y : Parse α} {f g : α → Parse β} {c : Cursor} {n : Nat}

/-! ## Readers that take a token -/

/-- Where a reader succeeds with a value of a certain kind, it has taken a token. -/
def TakesFor (Q : α → Prop) (x : Parse α) : Prop :=
  ∀ ⦃c a d⦄, Token.Ended c.tokens → x c = .ok a d → Q a → d.remaining < c.remaining

/-- Where a reader succeeds, it has taken a token. -/
class Takes (x : Parse α) : Prop where
  takes : TakesFor (fun _ => True) x

section TakesFor

variable {P : α → Prop} {Q : β → Prop}

theorem takesFor_any [h : Takes x] : TakesFor P x := fun _ _ _ hc hrun _ => h.takes hc hrun trivial

theorem takesFor_pure {a : α} (h : ¬P a) : TakesFor P (pure a : Parse α) := by
  intro c b d _ hrun hb
  cases hrun
  exact absurd hb h

/-- A token is taken in the first part, or else in the second. -/
theorem TakesFor.bind [hx : Moves x] [hf : ∀ a, Moves (f a)] (h : TakesFor P x)
    (hrest : ∀ a, ¬P a → TakesFor Q (f a)) : TakesFor Q (x >>= f) := by
  intro c b e hc hrun hb
  obtain ⟨a, d, ha, hfb⟩ := Run.bind_eq_ok.mp hrun
  have hfirst := hx.moves ha
  by_cases hP : P a
  · exact ((hf a).moves hfb).remaining_le.trans_lt (h hc ha hP)
  · exact (hrest a hP (hfirst.ended hc) hfb hb).trans_le hfirst.remaining_le

theorem takesFor_later [hx : Moves x] (h : ∀ a, TakesFor Q (f a)) : TakesFor Q (x >>= f) := by
  intro c b e hc hrun hb
  obtain ⟨a, d, ha, hfb⟩ := Run.bind_eq_ok.mp hrun
  have hfirst := hx.moves ha
  exact (h a (hfirst.ended hc) hfb hb).trans_le hfirst.remaining_le

theorem TakesFor.map {h : α → β} (hx : TakesFor P x) (hh : ∀ a, Q (h a) → P a) : TakesFor Q (h <$> x) := by
  intro c b d hc hrun hb
  obtain ⟨a, ha, rfl⟩ := Run.map_eq_ok.mp hrun
  exact hx hc ha (hh a hb)

theorem takesFor_eat {kind : TokenKind} (h : kind ≠ .eof) : TakesFor (· = true) (eat kind) := by
  intro c a d hc hrun ha
  unfold eat at hrun
  split at hrun
  · rename_i hkind
    cases hrun
    exact Cursor.remaining_next_lt hc (hkind ▸ h)
  · cases hrun
    cases ha

end TakesFor

instance [Takes x] [Moves x] [∀ a, Moves (f a)] : Takes (x >>= f) :=
  ⟨TakesFor.bind (P := fun _ => True) takesFor_any fun _ h => absurd trivial h⟩

theorem takes_first [Takes x] [Moves x] (h : ∀ a, Moves (f a)) : Takes (x >>= f) := inferInstance

theorem takes_later [Moves x] (h : ∀ a, Takes (f a)) : Takes (x >>= f) :=
  ⟨takesFor_later fun a => (h a).takes⟩

instance [Moves x] [h : ∀ a, Takes (f a)] : Takes (x >>= f) := takes_later h

instance [hx : Takes x] (f : α → β) : Takes (f <$> x) := ⟨hx.takes.map fun _ => id⟩

theorem takes_unexpected (message : String) : Takes (unexpected message : Parse α) :=
  ⟨fun _ _ _ _ hrun => by cases hrun⟩

theorem takes_expect {kind : TokenKind} (h : kind ≠ .eof) : Takes (expect kind) := by
  refine ⟨fun c a d hc hrun _ => ?_⟩
  obtain ⟨hkind, -, rfl⟩ := expect_eq_ok hrun
  exact Cursor.remaining_next_lt hc (hkind ▸ h)

/-- A reader that begins with a certain token. -/
theorem takes_opening {f : Token → Parse α} {kind : TokenKind} (h : kind ≠ .eof) [∀ t, Moves (f t)] :
    Takes (expect kind >>= f) :=
  have := takes_expect h
  inferInstance

instance : Takes ident := takes_opening (by decide)

instance {item : Parse α} [Moves item] : Takes (parameters item) :=
  takes_later fun _ => takes_opening (by decide)

/-! ## Readers that do the same -/

/-- Two readers do the same from a cursor on, and do not stop. -/
def SameAt (c : Cursor) (x y : Parse α) : Prop := x c = y c ∧ ∀ why, x c ≠ .stopped why

/-- Two readers do the same in front of less than `n` tokens, and do not stop. -/
class Coincide (n : Nat) (x y : Parse α) : Prop where
  same : ∀ {c : Cursor}, Token.Ended c.tokens → c.remaining < n → SameAt c x y

theorem coincide_refl (h : ∀ c why, x c ≠ .stopped why) : Coincide n x x := ⟨fun _ _ => ⟨rfl, h _⟩⟩

theorem Coincide.mono {m : Nat} (h : Coincide n x y) (hm : m ≤ n) : Coincide m x y :=
  ⟨fun hc hlt => h.same hc (hlt.trans_le hm)⟩

theorem sameAt_bind (h : SameAt c x y) (hrest : ∀ a d, x c = .ok a d → SameAt d (f a) (g a)) :
    SameAt c (x >>= f) (y >>= g) := by
  obtain ⟨hsame, hends⟩ := h
  unfold SameAt
  rw [Run.bind_apply, Run.bind_apply, ← hsame]
  cases hx : x c with
  | ok a d => exact hrest a d hx
  | error e d => exact ⟨rfl, fun why h => by cases h⟩
  | stopped why => exact absurd hx (hends why)

/-- Behind a token that is taken, one token less is left. -/
theorem sameAt_first [hx : Moves x] [ht : Takes x] (hc : Token.Ended c.tokens) (hn : c.remaining < n + 1)
    (h : SameAt c x y) (hrest : ∀ a, Coincide n (f a) (g a)) : SameAt c (x >>= f) (y >>= g) :=
  sameAt_bind h fun a _ ha => (hrest a).same ((hx.moves ha).ended hc)
    ((ht.takes hc ha trivial).trans_le (Nat.le_of_lt_succ hn))

theorem sameAt_advance {f g : Token → Parse α} (hc : Token.Ended c.tokens) (hn : c.remaining < n + 1)
    (hkind : c.kind ≠ .eof) (hrest : ∀ t, Coincide n (f t) (g t)) : SameAt c (advance >>= f) (advance >>= g) :=
  (hrest c.current).same ((Cursor.leads_next c).ended hc)
    ((Cursor.remaining_next_lt hc hkind).trans_le (Nat.le_of_lt_succ hn))

instance (a : α) : Coincide n (pure a : Parse α) (pure a) := coincide_refl fun _ _ h => by cases h

instance : Coincide n (get : Parse Cursor) get := coincide_refl fun _ _ h => by cases h

instance (cause : Cause) (span : Span) : Coincide n (Run.reject cause span : Parse α) (Run.reject cause span) :=
  coincide_refl fun _ _ h => by cases h

instance (message : String) : Coincide n (unexpected message : Parse α) (unexpected message) :=
  coincide_refl fun _ _ h => by cases h

instance : Coincide n advance advance := coincide_refl fun _ _ h => by cases h

instance (kind : TokenKind) : Coincide n (expect kind) (expect kind) :=
  coincide_refl fun _ _ h => by unfold expect at h; split at h <;> cases h

instance (kind : TokenKind) : Coincide n (eat kind) (eat kind) :=
  coincide_refl fun _ _ h => by unfold eat at h; split at h <;> cases h

instance [hx : Moves x] [h : Coincide n x y] [hrest : ∀ a, Coincide n (f a) (g a)] :
    Coincide n (x >>= f) (y >>= g) :=
  ⟨fun hc hn => sameAt_bind (h.same hc hn) fun a _ ha =>
    (hrest a).same ((hx.moves ha).ended hc) ((hx.moves ha).remaining_le.trans_lt hn)⟩

theorem coincide_bind (hx : Moves x) (h : Coincide n x y) (hrest : ∀ a, Coincide n (f a) (g a)) :
    Coincide n (x >>= f) (y >>= g) := inferInstance

/-- A reader that takes a token first is the same in front of one token more than its rest. -/
theorem coincide_first [Moves x] [Takes x] [h : Coincide (n + 1) x y] (hrest : ∀ a, Coincide n (f a) (g a)) :
    Coincide (n + 1) (x >>= f) (y >>= g) :=
  ⟨fun hc hn => sameAt_first hc hn (h.same hc hn) hrest⟩

instance [Moves x] [Coincide n x y] (f : α → β) : Coincide n (f <$> x) (f <$> y) := by
  rw [map_eq_pure_bind, map_eq_pure_bind]
  infer_instance

instance {p : Prop} [Decidable p] {x' y' : Parse α} [hx : Coincide n x y] [hy : Coincide n x' y'] :
    Coincide n (if p then x else x') (if p then y else y') := by
  split
  · exact hx
  · exact hy

instance : Coincide n current current := by
  unfold current
  infer_instance

instance : Coincide n kind kind := by
  unfold kind
  infer_instance

instance (k : Nat) : Coincide n (peek k) (peek k) := by
  unfold peek
  infer_instance

instance (start : Span) : Coincide n (spanFrom start) (spanFrom start) := by
  unfold spanFrom
  infer_instance

instance : Coincide n ident ident := by
  unfold ident
  infer_instance

/-- A repetition whose rounds take a token, but for the last, does not come to its bound. -/
theorem coincide_iterate {s t : α → Parse (Option α)} [hmoves : ∀ a, Moves (s a)]
    (htakes : ∀ a, TakesFor (fun next => next.isSome = true) (s a))
    (h : ∀ a, Coincide n (s a) (t a)) (a : α) : Coincide n (iterate s a) (iterate t a) := by
  have hloop (m : Nat) : ∀ {a c}, Token.Ended c.tokens → c.remaining < n → c.remaining < m →
      SameAt c (iterateAtMost s m a) (iterateAtMost t m a) := by
    induction m with
    | zero => exact fun _ _ hm => absurd hm (Nat.not_lt_zero _)
    | succ m ih =>
      intro a c hc hn hm
      refine sameAt_bind ((h a).same hc hn) fun next d hnext => ?_
      cases next with
      | none => exact ⟨rfl, fun why h => by cases h⟩
      | some b =>
        have hlt : d.remaining < c.remaining := htakes a hc hnext rfl
        exact ih (((hmoves a).moves hnext).ended hc) (hlt.trans hn) (by omega)
  exact ⟨fun hc hn => hloop _ hc hn (by omega)⟩

theorem coincide_collect {x y : Parse (Option α)} [Moves x]
    (htakes : TakesFor (fun next => next.isSome = true) x) (h : Coincide n x y) :
    Coincide n (collect x) (collect y) := by
  have hloop := coincide_iterate (n := n)
    (s := fun items => do return (← x).map (· :: items))
    (t := fun items => do return (← y).map (· :: items))
    (fun items => htakes.bind fun next hnext => takesFor_pure (by simpa using hnext))
    (fun items => inferInstance) []
  unfold collect
  infer_instance

instance {close : TokenKind} {item item' : Parse α} [Moves item] [Takes item] [Coincide n item item'] :
    Coincide n (commaList close item) (commaList close item') := by
  have hloop := coincide_iterate (s := commaList.step close item) (t := commaList.step close item') (n := n)
    (fun s => ?_) (fun s => ?_) ([], true)
  · unfold commaList
    infer_instance
  · unfold commaList.step
    split
    · exact takesFor_pure (by simp)
    · refine takesFor_later fun kind => ?_
      split
      · exact takesFor_pure (by simp)
      · exact takesFor_any
  · unfold commaList.step
    split <;> infer_instance

instance {item item' : Parse α} [Moves item] [Takes item] [Coincide n item item'] :
    Coincide n (parameters item) (parameters item') := by
  have hloop := coincide_iterate (s := parameters.step item) (t := parameters.step item') (n := n)
    (fun s => ?_) (fun s => ?_) ([], false, true)
  · unfold parameters
    infer_instance
  · unfold parameters.step
    split
    · exact takesFor_pure (by simp)
    · refine takesFor_later fun kind => ?_
      split
      · exact takesFor_pure (by simp)
      · refine (takesFor_eat (by decide)).bind fun eaten heaten => ?_
        rw [if_neg heaten]
        exact takesFor_any
  · unfold parameters.step
    split <;> infer_instance

instance {item item' : Parse α} [Moves item] [Takes item] [Coincide n item item'] :
    Coincide n (commaSeparated item) (commaSeparated item') := by
  have hmore := coincide_collect (n := n)
    (x := do if ← eat .comma then return some (← item) else return none)
    (y := do if ← eat .comma then return some (← item') else return none)
    ((takesFor_eat (by decide)).bind fun eaten heaten => by
      rw [if_neg heaten]
      exact takesFor_pure (by simp)) inferInstance
  unfold commaSeparated
  infer_instance

instance {reader reader' : Parse α} [h : Coincide n reader reader'] (accept : Cursor → Bool) :
    Coincide n (speculate reader accept) (speculate reader' accept) where
  same {c} hc hn := by
    obtain ⟨hsame, hends⟩ := h.same hc hn
    unfold SameAt speculate
    rw [← hsame]
    cases hreader : reader c with
    | ok a d =>
      refine ⟨rfl, fun why hstop => ?_⟩
      simp only at hstop
      split at hstop <;> cases hstop
    | error e d => exact ⟨rfl, fun why hstop => by cases hstop⟩
    | stopped why => exact absurd hreader (hends why)

end Parse

namespace Grammar

open Parse

/-! ## Rules that take a token -/

instance : Takes path := by
  unfold path
  infer_instance

section

variable (sub : Readers) [∀ r, Moves (sub r)] [∀ r, Takes (sub r)]

/-! ### Types -/

instance : Takes (namedType sub) := by
  unfold namedType
  infer_instance

instance (constant : Bool) : Takes (pointerType sub constant) := by
  unfold pointerType
  infer_instance

instance : Takes (constType sub) := by
  unfold constType
  refine takes_later fun start => takes_later fun kind => ?_
  split
  · infer_instance
  · infer_instance
  · refine takes_first fun inner => ?_
    split <;> infer_instance

instance : Takes (parenthesisedType sub) := by
  unfold parenthesisedType
  refine takes_later fun start => takes_first fun (params, variadic) => moves_bind inferInstance fun returning => ?_
  split
  · infer_instance
  · split <;> infer_instance

instance (element : Surface.TypeExpr) : Takes (arraySuffix sub element) := takes_opening (by decide)

instance : Takes (typeOperand sub) := by
  unfold typeOperand
  refine takes_later fun kind => ?_
  split <;> first | infer_instance | exact takes_unexpected _

instance (power : Power) : Takes (type sub power) := by
  unfold type
  infer_instance

/-! ### Expressions -/

instance : Takes (arguments sub) := takes_opening (by decide)

instance : Takes (named sub) := by
  unfold named
  infer_instance

instance (node : Surface.Expr → Surface.ExprKind) : Takes (prefixed sub node) := by
  unfold prefixed
  infer_instance

instance : Takes (reference sub) := by
  unfold reference
  infer_instance

instance : Takes (parenthesised sub) := by
  unfold parenthesised
  infer_instance

instance (heap : Bool) : Takes (array sub heap) := by
  have : Takes (expect .openBracket) := takes_expect (by decide)
  unfold array
  refine takes_first fun start => moves_bind inferInstance fun closing => ?_
  extract_lets +onlyGivenNames behind
  have hbehind (size : Option Surface.Expr) : Moves (behind size) := by
    refine moves_bind inferInstance fun _ => moves_bind inferInstance fun element =>
      moves_bind inferInstance fun _ => ?_
    cases size <;> infer_instance
  clear_value behind
  infer_instance

instance (start : Span) : Takes (allocated sub start) := by
  unfold allocated
  refine takes_later fun kind => ?_
  split
  · infer_instance
  · infer_instance

instance : Takes (allocation sub) := by
  unfold allocation
  infer_instance

instance (op : Surface.BinaryOp) (left : Surface.Expr) : Takes (binary sub op left) := by
  unfold binary
  infer_instance

instance (callee : Surface.Expr) : Takes (call sub callee) := by
  unfold call
  infer_instance

instance (base : Surface.Expr) : Takes (index sub base) := takes_opening (by decide)

omit [∀ r, Moves (sub r)] [∀ r, Takes (sub r)] in
instance (base : Surface.Expr) : Takes (member base) := takes_opening (by decide)

omit [∀ r, Moves (sub r)] [∀ r, Takes (sub r)] in
/-- A number, a text or a truth value is taken, unless the tokens are at their end. -/
theorem takesAt_token {node : Token → Parse Surface.Expr} {c d : Cursor} {e : Surface.Expr}
    [∀ t, Moves (node t)] (hc : Token.Ended c.tokens) (hkind : c.kind ≠ .eof)
    (h : (advance >>= node) c = .ok e d) : d.remaining < c.remaining := by
  obtain ⟨t, _, hadvance, h⟩ := Run.bind_eq_ok.mp h
  cases hadvance
  exact (Moves.moves h).remaining_le.trans_lt (Cursor.remaining_next_lt hc hkind)

instance : Takes (operand sub) := by
  refine ⟨fun c e d hc hrun _ => ?_⟩
  obtain ⟨kind, c₁, hread, hrest⟩ := Run.bind_eq_ok.mp hrun
  obtain ⟨hkind, rfl⟩ := kind_eq_ok hread
  have hfilled (hne : kind ≠ .eof) : c₁.kind ≠ .eof := hkind ▸ hne
  have htakes {x : Parse Surface.Expr} [hx : Takes x] (h : x c₁ = .ok e d) : d.remaining < c₁.remaining :=
    hx.takes hc h trivial
  split at hrest
  · exact takesAt_token hc (hfilled (by decide)) hrest
  · exact takesAt_token hc (hfilled (by decide)) hrest
  · exact takesAt_token hc (hfilled (by decide)) hrest
  · exact takesAt_token hc (hfilled (by decide)) hrest
  · exact htakes hrest
  · exact htakes hrest
  · exact htakes hrest
  · exact htakes hrest
  · exact htakes hrest
  · exact htakes hrest
  · exact htakes hrest
  · exact htakes hrest
  · exact htakes hrest
  · cases hrest

instance (power : Power) : Takes (expr sub power) := by
  unfold expr
  infer_instance

/-! ### Statements -/

instance : Takes declaredName := by
  unfold declaredName
  refine takes_later fun token => ?_
  split
  · infer_instance
  · exact takes_unexpected _

instance : Takes (varDecl sub) := by
  unfold varDecl
  infer_instance

instance : Takes (simpleStmt sub) := by
  unfold simpleStmt
  refine takes_later fun start => ?_
  split
  · infer_instance
  · refine takes_first fun target => moves_bind inferInstance fun kind => ?_
    split <;> infer_instance

instance : Takes (terminatedStmt sub) := by
  unfold terminatedStmt
  infer_instance

instance : Takes (block sub) := takes_opening (by decide)

instance : Takes (condition sub) := takes_opening (by decide)

instance : Takes (branch sub) := by
  unfold branch
  infer_instance

instance : Takes (ifStmt sub) := by
  unfold ifStmt
  infer_instance

instance : Takes (whileStmt sub) := by
  unfold whileStmt
  infer_instance

instance : Takes (forStmt sub) := by
  have : Takes (expect .openParen) := takes_expect (by decide)
  unfold forStmt
  exact takes_later fun start => takes_later fun name => takes_first fun _ =>
    moves_bind inferInstance fun init => inferInstance

instance : Takes (returnStmt sub) := by
  unfold returnStmt
  exact takes_later fun start => takes_later fun value => takes_opening (by decide)

omit [∀ r, Moves (sub r)] [∀ r, Takes (sub r)] in
instance (node : Option Surface.Ident → Surface.StmtKind) : Takes (jumpStmt node) := by
  unfold jumpStmt
  exact takes_later fun start => takes_later fun name => takes_opening (by decide)

instance : Takes (scopeStmt sub) := by
  unfold scopeStmt
  infer_instance

instance : Takes (stmt sub) := by
  unfold stmt
  refine takes_later fun kind => ?_
  split <;> infer_instance

/-! ### Declarations -/

instance : Takes (param sub) := by
  unfold param
  infer_instance

instance : Takes (macroParam sub) := by
  unfold macroParam
  infer_instance

instance (kind : Surface.FnKind) : Takes (fnDecl sub kind) := by
  have : Takes (expect .kwFn) := takes_expect (by decide)
  unfold fnDecl
  exact takes_first fun start => moves_bind inferInstance fun name => moves_bind inferInstance fun _ =>
    moves_bind inferInstance fun params => inferInstance

instance : Takes (field sub) := by
  unfold field
  exact takes_later fun start => takes_first fun name => moves_bind inferInstance fun type =>
    moves_bind inferInstance fun value => inferInstance

instance : Takes (structPart sub) := by
  unfold structPart
  refine takes_later fun kind => takes_later fun second => ?_
  split <;> first | infer_instance | exact takes_unexpected _

instance : Takes (structDecl sub) := by
  have : Takes (expect .kwStruct) := takes_expect (by decide)
  unfold structDecl
  exact takes_first fun _ => moves_bind inferInstance fun name => moves_bind inferInstance fun _ =>
    moves_bind inferInstance fun parts => inferInstance

instance : Takes (macroDecl sub) := takes_opening (by decide)

instance : Takes (itemKind sub) := by
  unfold itemKind
  refine takes_later fun kind => ?_
  split <;> first | infer_instance | exact takes_unexpected _

instance : Takes (item sub) := by
  unfold item
  infer_instance

/-! ### All rules -/

theorem takes_step (r : Rule) : Takes (step sub r) := by
  cases r with
  | expr power => exact inferInstanceAs (Takes (expr sub power))
  | type power => exact inferInstanceAs (Takes (type sub power))
  | stmt => exact inferInstanceAs (Takes (stmt sub))
  | block => exact inferInstanceAs (Takes (block sub))

end

theorem takes_rulesTo (n : Nat) (r : Rule) : Takes (rulesTo n r) := by
  induction n generalizing r with
  | zero => exact ⟨fun c a d _ hrun => by cases hrun⟩
  | succ n ih =>
    have (r : Rule) := moves_rulesTo n r
    exact takes_step (rulesTo n) r

instance (r : Rule) : Takes (rule r) := by
  unfold rule
  exact takes_later fun c => takes_rulesTo _ r

/-! ## Rules that do the same -/

section

variable {n : Nat}

instance : Coincide n pathRest pathRest :=
  coincide_collect ((takesFor_eat (by decide)).bind fun eaten heaten => by
    rw [if_neg heaten]
    exact takesFor_pure (by simp)) inferInstance

instance : Coincide n path path := by
  unfold path
  infer_instance

instance : Coincide n label label := by
  unfold label
  infer_instance

instance : Coincide n declaredName declaredName := by
  unfold declaredName
  infer_instance

instance : Coincide n number number := by
  unfold number
  infer_instance

instance (node : Token → Surface.ExprKind) : Coincide n (leaf node) (leaf node) := by
  unfold leaf
  infer_instance

instance (base : Surface.Expr) : Coincide n (member base) (member base) := by
  unfold member
  infer_instance

instance (node : Option Surface.Ident → Surface.StmtKind) : Coincide n (jumpStmt node) (jumpStmt node) := by
  unfold jumpStmt
  infer_instance

instance {α : Type} (close : TokenKind) (part part' : Parse α) [Moves part] [Coincide n part part'] :
    Coincide n (optionalBefore close part) (optionalBefore close part') := by
  unfold optionalBefore
  infer_instance

variable {sub sub' : Readers} [∀ r, Moves (sub r)] [∀ r, Takes (sub r)] [∀ r, Coincide n (sub r) (sub' r)]

/-! ### Types -/

instance : Coincide n (typeArguments sub) (typeArguments sub') := by
  unfold typeArguments
  infer_instance

instance (constant : Bool) : Coincide n (pointerType sub constant) (pointerType sub' constant) := by
  unfold pointerType
  infer_instance

instance (element : Surface.TypeExpr) : Coincide n (arraySuffix sub element) (arraySuffix sub' element) := by
  unfold arraySuffix
  dsimp only
  exact coincide_bind inferInstance inferInstance fun _ => inferInstance

theorem coincide_namedType : Coincide (n + 1) (namedType sub) (namedType sub') := by
  unfold namedType
  exact coincide_first fun names => inferInstance

omit [∀ r, Takes (sub r)] in
theorem sameAt_pointerType {c : Cursor} (hc : Token.Ended c.tokens) (hn : c.remaining < n + 1)
    (hkind : c.kind ≠ .eof) (constant : Bool) :
    SameAt c (pointerType sub constant) (pointerType sub' constant) :=
  sameAt_advance hc hn hkind fun _ => inferInstance

omit [∀ r, Takes (sub r)] in
theorem sameAt_constType {c : Cursor} (hc : Token.Ended c.tokens) (hn : c.remaining < n + 1)
    (hkind : c.kind ≠ .eof) : SameAt c (constType sub) (constType sub') := by
  refine sameAt_advance hc hn hkind fun start => coincide_bind inferInstance inferInstance fun kind => ?_
  split
  · infer_instance
  · infer_instance
  · refine coincide_bind inferInstance inferInstance fun inner => ?_
    split <;> infer_instance

theorem sameAt_parenthesisedType {c : Cursor} (hc : Token.Ended c.tokens) (hn : c.remaining < n + 1)
    (hkind : c.kind ≠ .eof) : SameAt c (parenthesisedType sub) (parenthesisedType sub') := by
  refine sameAt_advance hc hn hkind fun start => coincide_bind inferInstance inferInstance
    fun (params, variadic) => coincide_bind inferInstance inferInstance fun returning => ?_
  split
  · infer_instance
  · split <;> infer_instance

theorem coincide_typeOperand : Coincide (n + 1) (typeOperand sub) (typeOperand sub') := by
  refine ⟨fun {c} hc hn => sameAt_bind ⟨rfl, nofun⟩ fun kind d hread => ?_⟩
  obtain ⟨hkind, rfl⟩ := kind_eq_ok hread
  have hfilled (hne : kind ≠ .eof) : d.kind ≠ .eof := hkind ▸ hne
  split
  · exact coincide_namedType.same hc hn
  · exact sameAt_pointerType hc hn (hfilled (by decide)) false
  · exact sameAt_pointerType hc hn (hfilled (by decide)) false
  · exact sameAt_constType hc hn (hfilled (by decide))
  · exact sameAt_parenthesisedType hc hn (hfilled (by decide))
  · exact ⟨rfl, nofun⟩

theorem coincide_type (power : Power) : Coincide (n + 1) (type sub power) (type sub' power) := by
  have : Coincide (n + 1) (typeOperand sub) (typeOperand sub') := coincide_typeOperand
  unfold type
  refine coincide_first fun operand => coincide_iterate (fun left => ?_) (fun left => inferInstance) operand
  refine takesFor_later fun kind => ?_
  split
  · exact takesFor_any
  · exact takesFor_pure (by simp)

/-! ### Expressions -/

instance : Coincide n (templateArguments sub) (templateArguments sub') := by
  unfold templateArguments
  infer_instance

instance : Coincide n (arguments sub) (arguments sub') := by
  unfold arguments
  infer_instance

instance (type : Surface.TypeExpr) (heap : Bool) :
    Coincide n (structFields sub type heap) (structFields sub' type heap) := by
  unfold structFields
  exact coincide_bind inferInstance inferInstance fun _ => inferInstance

theorem coincide_named : Coincide (n + 1) (named sub) (named sub') := by
  unfold named
  exact coincide_first fun names => coincide_bind inferInstance inferInstance fun args =>
    coincide_bind inferInstance inferInstance fun kind => inferInstance

omit [∀ r, Takes (sub r)] in
theorem sameAt_prefixed {c : Cursor} (hc : Token.Ended c.tokens) (hn : c.remaining < n + 1)
    (hkind : c.kind ≠ .eof) (node : Surface.Expr → Surface.ExprKind) :
    SameAt c (prefixed sub node) (prefixed sub' node) :=
  sameAt_advance hc hn hkind fun _ => inferInstance

omit [∀ r, Takes (sub r)] in
theorem sameAt_reference {c : Cursor} (hc : Token.Ended c.tokens) (hn : c.remaining < n + 1)
    (hkind : c.kind ≠ .eof) : SameAt c (reference sub) (reference sub') :=
  sameAt_advance hc hn hkind fun _ => inferInstance

omit [∀ r, Takes (sub r)] in
theorem sameAt_parenthesised {c : Cursor} (hc : Token.Ended c.tokens) (hn : c.remaining < n + 1)
    (hkind : c.kind ≠ .eof) : SameAt c (parenthesised sub) (parenthesised sub') :=
  sameAt_advance hc hn hkind fun _ => inferInstance

theorem coincide_array (heap : Bool) : Coincide (n + 1) (array sub heap) (array sub' heap) := by
  have : Takes (expect .openBracket) := takes_expect (by decide)
  unfold array
  refine coincide_first fun start => coincide_bind inferInstance inferInstance fun closing => ?_
  extract_lets +onlyGivenNames behind behind'
  have hbehind (size : Option Surface.Expr) : Coincide n (behind size) (behind' size) := by
    refine coincide_bind inferInstance inferInstance fun _ => coincide_bind inferInstance inferInstance
      fun element => coincide_bind inferInstance inferInstance fun _ => ?_
    cases size <;> infer_instance
  clear_value behind behind'
  infer_instance

instance (heap : Bool) : Coincide n (array sub heap) (array sub' heap) :=
  (coincide_array heap).mono (Nat.le_succ n)

instance (start : Span) : Coincide n (allocated sub start) (allocated sub' start) := by
  unfold allocated
  exact coincide_bind inferInstance inferInstance fun kind => inferInstance

theorem sameAt_allocation {c : Cursor} (hc : Token.Ended c.tokens) (hn : c.remaining < n + 1)
    (hkind : c.kind ≠ .eof) : SameAt c (allocation sub) (allocation sub') :=
  sameAt_advance hc hn hkind fun _ => inferInstance

theorem coincide_operand : Coincide (n + 1) (operand sub) (operand sub') := by
  refine ⟨fun {c} hc hn => sameAt_bind ⟨rfl, nofun⟩ fun kind d hread => ?_⟩
  obtain ⟨hkind, rfl⟩ := kind_eq_ok hread
  have hfilled (hne : kind ≠ .eof) : d.kind ≠ .eof := hkind ▸ hne
  have hsame {x : Parse Surface.Expr} [h : Coincide (n + 1) x x] : SameAt d x x := h.same hc hn
  split
  · exact hsame
  · exact hsame
  · exact hsame
  · exact hsame
  · exact coincide_named.same hc hn
  · exact sameAt_prefixed hc hn (hfilled (by decide)) _
  · exact sameAt_prefixed hc hn (hfilled (by decide)) _
  · exact sameAt_reference hc hn (hfilled (by decide))
  · exact sameAt_prefixed hc hn (hfilled (by decide)) _
  · exact sameAt_prefixed hc hn (hfilled (by decide)) _
  · exact sameAt_parenthesised hc hn (hfilled (by decide))
  · exact (coincide_array false).same hc hn
  · exact sameAt_allocation hc hn (hfilled (by decide))
  · exact ⟨rfl, nofun⟩

/-- An operator goes on in the same way, or there is none in either. -/
def OperatorsCoincide (n : Nat) (sub sub' : Readers) (kind : TokenKind) : Prop :=
  (operator? sub kind = none ∧ operator? sub' kind = none) ∨
    ∃ own extend extend', operator? sub kind = some (own, extend) ∧ operator? sub' kind = some (own, extend') ∧
      ∀ left, Takes (extend left) ∧ Coincide n (extend left) (extend' left)

theorem coincide_operator? (kind : TokenKind) : OperatorsCoincide n sub sub' kind := by
  unfold OperatorsCoincide operator?
  split
  · refine .inr ⟨_, _, _, rfl, rfl, fun left => ⟨inferInstance, ?_⟩⟩
    unfold call
    infer_instance
  · refine .inr ⟨_, _, _, rfl, rfl, fun left => ⟨inferInstance, ?_⟩⟩
    unfold index
    infer_instance
  · exact .inr ⟨_, _, _, rfl, rfl, fun left => ⟨inferInstance, inferInstance⟩⟩
  · cases binaryOp? kind with
    | none => exact .inl ⟨rfl, rfl⟩
    | some op =>
      refine .inr ⟨_, _, _, rfl, rfl, fun left => ⟨inferInstance, ?_⟩⟩
      unfold binary
      infer_instance

theorem coincide_expr (power : Power) : Coincide (n + 1) (expr sub power) (expr sub' power) := by
  have : Coincide (n + 1) (operand sub) (operand sub') := coincide_operand
  unfold expr
  refine coincide_first fun operand => coincide_iterate (fun left => takesFor_later fun kind => ?_)
    (fun left => coincide_bind inferInstance inferInstance fun kind => ?_) operand
  all_goals rcases (coincide_operator? kind : OperatorsCoincide n sub sub' kind) with
    ⟨hnone, hnone'⟩ | ⟨own, extend, extend', hsome, hsome', h⟩
  · simp only [hnone]
    exact takesFor_pure (by simp)
  · have := (h left).1
    simp only [hsome]
    split
    · exact takesFor_any
    · exact takesFor_pure (by simp)
  · simp only [hnone, hnone']
    infer_instance
  · have := (h left).2
    have := moves_operator? sub hsome left
    simp only [hsome, hsome']
    infer_instance

/-! ### Statements -/

instance : Coincide n ( typeAnnotation sub) ( typeAnnotation sub') := by
  unfold typeAnnotation
  infer_instance

instance : Coincide n (initializer sub) (initializer sub') := by
  unfold initializer
  infer_instance

omit [∀ r, Takes (sub r)] in
theorem sameAt_varDecl {c : Cursor} (hc : Token.Ended c.tokens) (hn : c.remaining < n + 1)
    (hkind : c.kind ≠ .eof) : SameAt c (varDecl sub) (varDecl sub') :=
  sameAt_advance hc hn hkind fun _ => coincide_bind inferInstance inferInstance fun _ => inferInstance

/-- A statement without a keyword may begin with an expression, in front of as many tokens. -/
theorem coincide_simpleStmt [Coincide (n + 1) sub.wholeExpr sub'.wholeExpr] :
    Coincide (n + 1) (simpleStmt sub) (simpleStmt sub') := by
  refine ⟨fun {c} hc hn => sameAt_bind ⟨rfl, nofun⟩ fun start d hread => ?_⟩
  obtain ⟨rfl, rfl⟩ : c.current = start ∧ c = d := by
    cases hread
    exact ⟨rfl, rfl⟩
  split
  · rename_i hkind
    have hfilled : c.kind ≠ .eof := by
      rcases hkind with h | h <;> exact fun heof => by cases heof.symm.trans h
    exact sameAt_bind (sameAt_varDecl hc hn hfilled) fun decl e hdecl => ⟨rfl, nofun⟩
  · refine (coincide_first (n := n) fun target => coincide_bind inferInstance inferInstance fun kind => ?_).same hc hn
    split <;> infer_instance

instance : Coincide n (simpleStmt sub) (simpleStmt sub') := by
  cases n with
  | zero => exact ⟨fun _ hn => absurd hn (Nat.not_lt_zero _)⟩
  | succ n =>
    have hsub (r : Rule) : Coincide n (sub r) (sub' r) :=
      Coincide.mono (n := n + 1) inferInstance (Nat.le_succ n)
    exact coincide_simpleStmt

theorem coincide_terminatedStmt [Coincide (n + 1) sub.wholeExpr sub'.wholeExpr] :
    Coincide (n + 1) (terminatedStmt sub) (terminatedStmt sub') := by
  have : Coincide (n + 1) (simpleStmt sub) (simpleStmt sub') := coincide_simpleStmt
  unfold terminatedStmt
  exact coincide_first fun stmt => inferInstance

theorem coincide_block : Coincide (n + 1) (block sub) (block sub') := by
  have : Takes (expect .openCurly) := takes_expect (by decide)
  unfold block
  refine coincide_first fun start => coincide_bind inferInstance (coincide_collect ?_ ?_) fun stmts => inferInstance
  · refine takesFor_later fun kind => ?_
    split
    · exact takesFor_pure (by simp)
    · exact fun c a d _ hrun => by cases hrun
    · exact takesFor_any
  · refine coincide_bind inferInstance inferInstance fun kind => ?_
    split <;> infer_instance

omit [∀ r, Takes (sub r)] in
instance : Coincide n (condition sub) (condition sub') := by
  unfold condition
  infer_instance

omit [∀ r, Takes (sub r)] in
instance : Coincide n (branch sub) (branch sub') := by
  unfold branch
  infer_instance

omit [∀ r, Takes (sub r)] in
instance (first : Surface.Expr × Surface.Block) : Coincide n (moreBranches sub first) (moreBranches sub' first) := by
  have hloop := coincide_iterate (s := moreBranches.step sub) (t := moreBranches.step sub') (n := n)
    (fun s => ?_) (fun s => ?_) ([first], none)
  · unfold moreBranches
    infer_instance
  · unfold moreBranches.step
    split
    · exact takesFor_pure (by simp)
    · refine (takesFor_eat (by decide)).bind fun eaten heaten => ?_
      rw [if_neg heaten]
      exact takesFor_pure (by simp)
  · unfold moreBranches.step
    split <;> infer_instance

omit [∀ r, Takes (sub r)] in
theorem sameAt_ifStmt {c : Cursor} (hc : Token.Ended c.tokens) (hn : c.remaining < n + 1)
    (hkind : c.kind ≠ .eof) : SameAt c (ifStmt sub) (ifStmt sub') :=
  sameAt_advance hc hn hkind fun _ => inferInstance

omit [∀ r, Takes (sub r)] in
theorem sameAt_whileStmt {c : Cursor} (hc : Token.Ended c.tokens) (hn : c.remaining < n + 1)
    (hkind : c.kind ≠ .eof) : SameAt c (whileStmt sub) (whileStmt sub') :=
  sameAt_advance hc hn hkind fun _ => inferInstance

theorem sameAt_forStmt {c : Cursor} (hc : Token.Ended c.tokens) (hn : c.remaining < n + 1)
    (hkind : c.kind ≠ .eof) : SameAt c (forStmt sub) (forStmt sub') :=
  sameAt_advance hc hn hkind fun _ => coincide_bind inferInstance inferInstance fun _ =>
    coincide_bind inferInstance inferInstance fun _ => coincide_bind inferInstance inferInstance fun _ =>
      coincide_bind inferInstance inferInstance fun _ => coincide_bind inferInstance inferInstance fun _ =>
        inferInstance

omit [∀ r, Takes (sub r)] in
theorem sameAt_returnStmt {c : Cursor} (hc : Token.Ended c.tokens) (hn : c.remaining < n + 1)
    (hkind : c.kind ≠ .eof) : SameAt c (returnStmt sub) (returnStmt sub') :=
  sameAt_advance hc hn hkind fun _ => inferInstance

/-- A statement may begin with a block or an expression, in front of as many tokens. -/
theorem coincide_stmt [Coincide (n + 1) sub.wholeExpr sub'.wholeExpr]
    [Coincide (n + 1) sub.wholeBlock sub'.wholeBlock] :
    Coincide (n + 1) (stmt sub) (stmt sub') := by
  refine ⟨fun {c} hc hn => sameAt_bind ⟨rfl, nofun⟩ fun kind d hread => ?_⟩
  obtain ⟨hkind, rfl⟩ := kind_eq_ok hread
  have hfilled (hne : kind ≠ .eof) : d.kind ≠ .eof := hkind ▸ hne
  have hsame {x y : Parse Surface.Stmt} [h : Coincide (n + 1) x y] : SameAt d x y := h.same hc hn
  split
  · exact sameAt_ifStmt hc hn (hfilled (by decide))
  · exact sameAt_whileStmt hc hn (hfilled (by decide))
  · exact sameAt_forStmt hc hn (hfilled (by decide))
  · unfold scopeStmt
    exact hsame
  · exact sameAt_returnStmt hc hn (hfilled (by decide))
  · exact hsame
  · exact hsame
  · exact coincide_terminatedStmt.same hc hn

/-! ### One more level -/

/-- A rule that takes a token before it refers to another is the same in front of one token more. -/
theorem coincide_step {r : Rule} (hr : r ≠ .stmt) : Coincide (n + 1) (step sub r) (step sub' r) := by
  cases r with
  | expr power => exact coincide_expr power
  | type power => exact coincide_type power
  | stmt => exact absurd rfl hr
  | block => exact coincide_block

/-- Every rule is the same in front of as many tokens. -/
theorem coincide_step_le (r : Rule) : Coincide n (step sub r) (step sub' r) := by
  by_cases hr : r = .stmt
  · subst hr
    cases n with
    | zero => exact ⟨fun _ hn => absurd hn (Nat.not_lt_zero _)⟩
    | succ n =>
      have hsub (r : Rule) : Coincide n (sub r) (sub' r) := Coincide.mono (n := n + 1) inferInstance (Nat.le_succ n)
      exact coincide_stmt
  · exact (coincide_step hr).mono (Nat.le_succ n)

/-- Two levels more are enough for a statement as well. -/
theorem coincide_step_step (r : Rule) : Coincide (n + 1) (step (step sub) r) (step (step sub') r) := by
  have hmoves (r : Rule) := moves_step sub r
  have htakes (r : Rule) := takes_step sub r
  have hsame (r : Rule) : Coincide n (step sub r) (step sub' r) := coincide_step_le r
  by_cases hr : r = .stmt
  · subst hr
    have hexpr : Coincide (n + 1) (step sub).wholeExpr (step sub').wholeExpr := coincide_step nofun
    have hblock : Coincide (n + 1) (step sub).wholeBlock (step sub').wholeBlock := coincide_step nofun
    exact coincide_stmt
  · exact coincide_step hr

end

/-! ## The grammar -/

/-- Two levels for each token are enough. -/
theorem coincide_rulesTo (n i j : Nat) (r : Rule) : Coincide n (rulesTo (i + 2 * n) r) (rulesTo (j + 2 * n) r) := by
  induction n generalizing r with
  | zero => exact ⟨fun _ hn => absurd hn (Nat.not_lt_zero _)⟩
  | succ n ih =>
    have hmoves (r : Rule) := moves_rulesTo (i + 2 * n) r
    have htakes (r : Rule) := takes_rulesTo (i + 2 * n) r
    exact coincide_step_step r

theorem rule_apply (r : Rule) (c : Cursor) : rule r c = rulesTo (depthFor c.remaining) r c := rfl

/-- The grammar is the same at every depth that is enough. -/
theorem sameAt_rule {c : Cursor} (hc : Token.Ended c.tokens) (r : Rule) {depth : Nat}
    (hdepth : 2 * (c.remaining + 1) ≤ depth) : SameAt c (rulesTo depth r) (rule r) := by
  obtain ⟨i, rfl⟩ := Nat.exists_eq_add_of_le' hdepth
  have hlevels := (coincide_rulesTo (c.remaining + 1) i (2 * c.remaining + 6) r).same hc (Nat.lt_succ_self _)
  have hsame : 2 * c.remaining + 6 + 2 * (c.remaining + 1) = depthFor c.remaining := by
    unfold depthFor
    omega
  rw [hsame] at hlevels
  exact ⟨hlevels.1.trans (rule_apply r c).symm, hlevels.2⟩

instance (n : Nat) (r : Rule) : Coincide n (rule r) (rule r) where
  same {c} hc _ := by
    obtain ⟨hsame, hends⟩ := sameAt_rule hc r le_rfl
    exact ⟨rfl, hsame ▸ hends⟩

/-- The grammar satisfies its equations: the bound on its depth is never used up. -/
theorem rule_eq_step {c : Cursor} (hc : Token.Ended c.tokens) (r : Rule) : rule r c = step rule r c := by
  have hmoves (r : Rule) := moves_rulesTo (2 * (c.remaining + 1)) r
  have htakes (r : Rule) := takes_rulesTo (2 * (c.remaining + 1)) r
  have hsub (r : Rule) : Coincide (c.remaining + 1) (rulesTo (2 * (c.remaining + 1)) r) (rule r) :=
    ⟨fun hc' hn => sameAt_rule hc' r (by omega)⟩
  have hlevel : Coincide (c.remaining + 1) (step (rulesTo (2 * (c.remaining + 1))) r) (step rule r) :=
    coincide_step_le r
  have hstep := hlevel.same hc (Nat.lt_succ_self _)
  exact (sameAt_rule hc r (Nat.le_succ _)).1.symm.trans hstep.1

/-! ### Declarations -/

section

variable {n : Nat} {sub : Readers} [∀ r, Moves (sub r)] [∀ r, Takes (sub r)] [∀ r, Coincide n (sub r) (sub r)]

instance : Coincide n (fnBody sub) (fnBody sub) := by
  unfold fnBody
  infer_instance

instance : Coincide n (param sub) (param sub) := by
  unfold param
  infer_instance

instance (kind : Surface.FnKind) : Coincide n (fnDecl sub kind) (fnDecl sub kind) := by
  unfold fnDecl
  exact coincide_bind inferInstance inferInstance fun start => coincide_bind inferInstance inferInstance
    fun name => coincide_bind inferInstance inferInstance fun _ => coincide_bind inferInstance inferInstance
      fun params => inferInstance

instance : Coincide n (field sub) (field sub) := by
  unfold field
  exact coincide_bind inferInstance inferInstance fun start => coincide_bind inferInstance inferInstance
    fun name => coincide_bind inferInstance inferInstance fun type => coincide_bind inferInstance inferInstance
      fun value => inferInstance

instance : Coincide n (structPart sub) (structPart sub) := by
  unfold structPart
  refine coincide_bind inferInstance inferInstance fun kind => coincide_bind inferInstance inferInstance
    fun second => ?_
  split <;> infer_instance

instance : Coincide n (structDecl sub) (structDecl sub) := by
  unfold structDecl
  refine coincide_bind inferInstance inferInstance fun _ => coincide_bind inferInstance inferInstance fun name =>
    coincide_bind inferInstance inferInstance fun _ => coincide_bind inferInstance
      (coincide_collect (takesFor_later fun kind => ?_) inferInstance) fun parts => inferInstance
  split
  · exact takesFor_pure (by simp)
  · exact takesFor_any

instance : Coincide n (macroParam sub) (macroParam sub) := by
  unfold macroParam
  infer_instance

instance : Coincide n (macroDecl sub) (macroDecl sub) := by
  unfold macroDecl
  exact coincide_bind inferInstance inferInstance fun _ => coincide_bind inferInstance inferInstance fun name =>
    coincide_bind inferInstance inferInstance fun _ => inferInstance

instance : Coincide n templateParams templateParams := by
  unfold templateParams
  infer_instance

instance : Coincide n (varDecl sub) (varDecl sub) := by
  unfold varDecl
  exact coincide_bind inferInstance inferInstance fun start => coincide_bind inferInstance inferInstance
    fun name => inferInstance

instance : Coincide n (itemKind sub) (itemKind sub) := by
  unfold itemKind
  refine coincide_bind inferInstance inferInstance fun kind => ?_
  split <;> infer_instance

instance : Coincide n (item sub) (item sub) := by
  unfold item
  infer_instance

instance : Coincide n package package := by
  unfold package
  infer_instance

instance : Coincide n imports imports := by
  refine coincide_collect ((takesFor_eat (by decide)).bind fun eaten heaten => ?_) inferInstance
  rw [if_neg heaten]
  exact takesFor_pure (by simp)

/-- A file is read up to an answer. -/
theorem coincide_file (name : String) : Coincide n (file sub name) (file sub name) := by
  unfold file
  refine coincide_bind inferInstance inferInstance fun package => coincide_bind inferInstance inferInstance
    fun imports => coincide_bind inferInstance (coincide_collect (takesFor_later fun c => ?_) inferInstance)
      fun items => inferInstance
  split
  · exact takesFor_any
  · exact takesFor_pure (by simp)

end

/-! ### What comes of it -/

/-- A reader answers, on the tokens it was given: behind where it began if it succeeds, and not in front
of that if it fails. -/
def Progresses {α : Type} (x : Parse α) (c : Cursor) : Prop :=
  (∃ a d, x c = .ok a d ∧ d.tokens = c.tokens ∧ c.index < d.index ∧ d.index < c.tokens.length) ∨
    ∃ e d, x c = .error e d ∧ d.tokens = c.tokens ∧ c.index ≤ d.index ∧ d.index < c.tokens.length

theorem progresses {α : Type} {x : Parse α} [hmoves : Moves x] [htakes : Takes x] {c : Cursor}
    (hc : Token.Ended c.tokens) (hx : Coincide (c.remaining + 1) x x) : Progresses x c := by
  have hlength := c.length_tokens
  cases hrun : x c with
  | ok a d =>
    have hleads := hmoves.moves hrun
    have hlength' := d.length_tokens
    have hlt := htakes.takes hc hrun trivial
    rw [hleads.tokens] at hlength'
    exact .inl ⟨a, d, hrun, hleads.tokens, by omega, by omega⟩
  | error e d =>
    have hleads := hmoves.fails hrun
    have hlength' := d.length_tokens
    have hle := hleads.remaining_le
    rw [hleads.tokens] at hlength'
    exact .inr ⟨e, d, hrun, hleads.tokens, by omega, by omega⟩
  | stopped why => exact absurd hrun ((hx.same hc (Nat.lt_succ_self _)).2 why)

/-- Where a trial is not accepted, the cursor stands where it stood. -/
theorem templateArguments_refused {d : Cursor} (hd : Token.Ended d.tokens) (hless : d.kind = .less)
    (h : ∀ args e, typeArguments rule d = .ok args e → followsTemplateArguments e.kind = false) :
    templateArguments rule d = .ok [] d := by
  have hends := ((inferInstance : Coincide (d.remaining + 1) (typeArguments rule) (typeArguments rule)).same hd
    (Nat.lt_succ_self _)).2
  have htrial : speculate (typeArguments rule) (followsTemplateArguments ·.kind) d = .ok none d := by
    unfold speculate
    cases hargs : typeArguments rule d with
    | ok args e => simp [h args e hargs]
    | error diagnostic e => rfl
    | stopped why => exact absurd hargs (hends why)
  have hkind : kind d = .ok .less d := by rw [← hless]; rfl
  simp [templateArguments, Run.bind_apply, hkind, Run.map_eq_ok, htrial]

/-- Behind a name whose template arguments are not accepted, the name is all there is. -/
theorem named_refused {c d : Cursor} {names : List Surface.Ident} (hpath : path c = .ok names d)
    (hless : d.kind = .less) (h : templateArguments rule d = .ok [] d) :
    named rule c = .ok (.mk (.path names []) (d.spanFrom (pathStart names))) d := by
  have hkind : kind d = .ok .less d := by rw [← hless]; rfl
  have hpeek : peek 1 d = .ok (d.peek 1) d := rfl
  have hopens : opensFields d = false := by simp [opensFields, hless]
  simp [named, Run.bind_apply, hpath, h, hkind, hpeek, hopens, Run.map_eq_ok, spanFrom]

/-- Tokens that end with an `eof` are read up to an answer. -/
theorem parseTokens_ne_stopped (name : String) {tokens : List Token} (hended : Token.Ended tokens) (why : Stop) :
    parseTokens name tokens ≠ .error (.stopped why) := by
  intro hstop
  unfold parseTokens at hstop
  cases tokens with
  | nil =>
    obtain ⟨front, last, htokens, -⟩ := hended
    simp at htokens
  | cons t rest =>
    have hsame : Coincide (rest.length + 1) (file rule name) (file rule name) := coincide_file name
    have hfile := (hsame.same (c := ⟨[], t, rest⟩) hended (Nat.lt_succ_self _)).2
    simp only [Cursor.ofTokens?] at hstop
    cases hrun : file rule name ⟨[], t, rest⟩ with
    | ok m d => simp [hrun, Outcome.result] at hstop
    | error e d => simp [hrun, Outcome.result] at hstop
    | stopped why' => exact hfile why' hrun

/-- Every text is read up to an answer. -/
theorem parse_ne_stopped (name text : String) (why : Stop) : parse name text ≠ .error (.stopped why) := by
  intro hstop
  unfold parse at hstop
  cases htokens : tokenize text name with
  | error d => simp [htokens] at hstop
  | ok tokens =>
    simp only [htokens] at hstop
    exact parseTokens_ne_stopped name (inOrder_tokenize htokens).ended why hstop

/-- On tokens that end with an `eof`, reading a file comes to an answer. From every cursor, so does every
rule, as if nothing bounded the depth of the grammar; a rule that succeeds has gone on, one that fails has
not gone back, and none goes beyond the last token. Template arguments that are tried behind a name and
not accepted leave the cursor behind the name, which is then read as if they had not been tried. -/
theorem reading_progresses (name : String) (tokens : List Token) (hended : Token.Ended tokens) :
    (∀ why, parseTokens name tokens ≠ .error (.stopped why)) ∧
      ∀ c : Cursor, c.tokens = tokens →
        (∀ r, rule r c = step rule r c ∧ Progresses (rule r) c) ∧ Progresses (item rule) c ∧
          ∀ names d, path c = .ok names d → d.kind = .less →
            (∀ args e, typeArguments rule d = .ok args e → followsTemplateArguments e.kind = false) →
              templateArguments rule d = .ok [] d ∧
                named rule c = .ok (.mk (.path names []) (d.spanFrom (pathStart names))) d := by
  refine ⟨parseTokens_ne_stopped name hended, ?_⟩
  rintro c rfl
  refine ⟨fun r => ⟨rule_eq_step hended r, progresses hended inferInstance⟩,
    progresses hended inferInstance, fun names d hpath hless hrefused => ?_⟩
  have hd : Token.Ended d.tokens := (Moves.moves hpath).ended hended
  have htrial := templateArguments_refused hd hless hrefused
  exact ⟨htrial, named_refused hpath hless htrial⟩

/-! `a < b;`, where what is behind `a` could be template arguments. -/

section Sample

private def sampleToken (kind : TokenKind) (text : String) (start stop : Nat) : Token :=
  ⟨kind, text, "a.own", start, stop⟩

private def sampleName : Token := sampleToken .identifier "a" 0 1

private def sampleLess : Token := sampleToken .less "<" 2 3

private def sampleBehind : List Token :=
  [sampleToken .identifier "b" 4 5, sampleToken .semicolon ";" 5 6, sampleToken .eof "EOF" 6 6]

theorem reading_progresses_comparison :
    Token.Ended (sampleName :: sampleLess :: sampleBehind) ∧
      path ⟨[], sampleName, sampleLess :: sampleBehind⟩ =
        .ok [⟨"a", sampleName.span⟩] ⟨[sampleName], sampleLess, sampleBehind⟩ ∧
      (∀ args e, typeArguments rule ⟨[sampleName], sampleLess, sampleBehind⟩ = .ok args e →
        followsTemplateArguments e.kind = false) ∧
      Progresses (rule .stmt) ⟨[], sampleName, sampleLess :: sampleBehind⟩ ∧
      named rule ⟨[], sampleName, sampleLess :: sampleBehind⟩ =
        .ok (.mk (.path [⟨"a", sampleName.span⟩] []) ⟨"a.own", 0, 1⟩) ⟨[sampleName], sampleLess, sampleBehind⟩ := by
  have hended : Token.Ended (sampleName :: sampleLess :: sampleBehind) :=
    ⟨sampleName :: sampleLess :: sampleBehind.dropLast, sampleToken .eof "EOF" 6 6, rfl, rfl⟩
  have hpath : path ⟨[], sampleName, sampleLess :: sampleBehind⟩ =
      .ok [⟨"a", sampleName.span⟩] ⟨[sampleName], sampleLess, sampleBehind⟩ := rfl
  have hrefused : ∀ args e, typeArguments rule ⟨[sampleName], sampleLess, sampleBehind⟩ = .ok args e →
      followsTemplateArguments e.kind = false := by
    obtain ⟨diagnostic, d, hfail⟩ : ∃ diagnostic d,
        typeArguments rule ⟨[sampleName], sampleLess, sampleBehind⟩ = .error diagnostic d := ⟨_, _, rfl⟩
    intro args e hargs
    cases hfail.symm.trans hargs
  obtain ⟨-, hcursors⟩ := reading_progresses "a.own" (sampleName :: sampleLess :: sampleBehind) hended
  obtain ⟨hrules, -, htrial⟩ := hcursors ⟨[], sampleName, sampleLess :: sampleBehind⟩ rfl
  exact ⟨hended, hpath, hrefused, (hrules .stmt).2, (htrial _ _ hpath rfl hrefused).2⟩

end Sample

end Grammar

end OwnLang
