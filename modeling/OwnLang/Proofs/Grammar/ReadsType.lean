import OwnLang.Grammar.Expr
import OwnLang.Proofs.Grammar.Reads

/-!
# Reading types back

One rule for each form of a type: if the readers `sub` read back what stands inside of it, then the
grammar's rule over `sub` reads back the form itself. A type or an expression is printed in two ways,
and what may follow it depends on the way: as it stands, at the end of a statement or of a pair of
parentheses (`ReadsExpr`, `ReadsType`), or in parentheses of its own (`ReadsOperand`, `ReadsInner`).
-/

namespace OwnLang.Grammar

open Surface Parse
open TokenKind (sign)

/-! ## Where texts start -/

/-- What an expression starts with. -/
def startsExpr : TokenKind → Prop
  | .number | .string | .kwTrue | .kwFalse | .identifier | .dash | .not | .ampersand | .star | .hash
  | .openParen | .openBracket | .kwNew => True
  | _ => False

/-- What a type starts with. -/
def startsType : TokenKind → Prop
  | .identifier | .ampersand | .star | .kwConst | .openParen => True
  | _ => False

/-- What is behind an expression that has no parentheses of its own. -/
def endsExpr : TokenKind → Prop
  | .closeParen | .semicolon => True
  | _ => False

/-- What is behind a type that has no parentheses of its own. -/
def endsType : TokenKind → Prop
  | .closeParen | .semicolon | .comma | .assignment | .openCurly => True
  | _ => False

/-- What goes on with no operand in front of it. -/
abbrev endsOperand (kind : TokenKind) : Prop :=
  kind ≠ .openParen ∧ kind ≠ .openBracket ∧ kind ≠ .dot ∧ binaryOp? kind = none

/-- What goes on with no type in parentheses in front of it. -/
abbrev endsInner (kind : TokenKind) : Prop := kind ≠ .openBracket ∧ kind ≠ .colon

theorem endsOperand_of_endsExpr (kind : TokenKind) (h : endsExpr kind) : endsOperand kind := by
  cases kind <;> first | exact h.elim | (refine ⟨?_, ?_, ?_, rfl⟩ <;> decide)

theorem endsInner_of_endsType (kind : TokenKind) (h : endsType kind) : endsInner kind := by
  cases kind <;> first | exact h.elim | (constructor <;> decide)

theorem not_startsExpr_of_endsExpr {kind : TokenKind} (h : endsExpr kind) : ¬startsExpr kind := by
  cases kind <;> first | exact h.elim | exact id

theorem endsType_of_endsExpr (kind : TokenKind) (h : endsExpr kind) : endsType kind := by
  cases kind <;> first | exact h.elim | trivial

theorem followsTemplateArguments_of_endsExpr (kind : TokenKind) (h : endsExpr kind) :
    followsTemplateArguments kind = true := by
  cases kind <;> first | exact h.elim | rfl

/-! ## What it is to be read back -/

section Back

variable (sub : Readers)

/-- An expression is read back as it stands. -/
def ReadsExpr (e : Expr) : Prop :=
  ∀ rest, Heads endsExpr rest → Reads sub.wholeExpr e.print rest fun e' => e'.bare = e.bare

/-- An expression in parentheses is read back, at every power. -/
def ReadsOperand (e : Expr) : Prop :=
  ∀ power rest, Heads endsOperand rest →
    Reads (sub (.expr power)) (paren e.print) rest fun e' : Expr => e'.bare = e.bare

/-- A type is read back as it stands, at every power that leaves it its brackets. -/
def ReadsType (t : TypeExpr) : Prop :=
  ∀ power rest, Power.call.tighter power = true → Heads endsType rest →
    Reads (sub (.type power)) t.print rest fun t' : TypeExpr => t'.bare = t.bare

/-- A type in parentheses is read back, at every power. -/
def ReadsInner (t : TypeExpr) : Prop :=
  ∀ power rest, Heads endsInner rest →
    Reads (sub (.type power)) (paren t.print) rest fun t' : TypeExpr => t'.bare = t.bare

end Back

/-! ## Pieces -/

variable {sub : Readers} {text text' rest : List BareToken}

@[simp] theorem bare_withSpan (e : Expr) (span : Span) : (e.withSpan span).bare = e.bare := by
  cases e
  rfl

@[simp] theorem type_bare_withSpan (t : TypeExpr) (span : Span) : (t.withSpan span).bare = t.bare := by
  cases t
  rfl

/-- A node that gets its place last. -/
theorem reads_place {α : Type} {node : Span → α} {Q : α → Prop} (start : Span) (h : ∀ span, Q (node span)) :
    Reads (spanFrom start >>= fun span => pure (node span)) [] rest Q :=
  (reads_spanFrom start).last fun span _ => reads_pure (h span)

theorem printPathRest_eq_flatMap (names : List Ident) :
    printPathRest names = names.flatMap fun name => [sign .colonColon, name.print] := by
  induction names with
  | nil => rfl
  | cons name names ih => rw [printPathRest, ih, List.flatMap_cons]; rfl

theorem reads_pathRest (names : List Ident) (hrest : headKind rest ≠ some .colonColon) :
    Reads pathRest (printPathRest names) rest fun names' => names'.map Ident.bare = names.map Ident.bare := by
  rw [printPathRest_eq_flatMap]
  refine reads_collect Ident.bare Ident.bare (by simp) (fun done name todo _ => ?_) ?_
  · refine (reads_eat (t := sign .colonColon)).take fun eaten heaten => ?_
    subst heaten
    exact (reads_ident name).last fun name' hname => reads_pure ⟨name', rfl, hname⟩
  · refine (reads_eat_other hrest).last fun eaten heaten => ?_
    subst heaten
    exact reads_pure rfl

theorem reads_path {names : List Ident} (h : names ≠ []) (hrest : headKind rest ≠ some .colonColon) :
    Reads path (printPath names) rest fun names' => names'.map Ident.bare = names.map Ident.bare := by
  cases names with
  | nil => exact absurd rfl h
  | cons name names =>
    refine (reads_ident name).take fun name' hname => ?_
    exact (reads_pathRest names hrest).last fun names' hnames => reads_pure (by simp [hname, hnames])

theorem heads_path {names : List Ident} (h : names ≠ []) {p : TokenKind → Prop} (hp : p .identifier) :
    Heads p (printPath names) := by
  cases names with
  | nil => exact absurd rfl h
  | cons name names => exact heads_cons hp _

theorem headKind_path {names : List Ident} (h : names ≠ []) (text rest : List BareToken) :
    headKind ((printPath names ++ text) ++ rest) = some .identifier := by
  cases names with
  | nil => exact absurd rfl h
  | cons name names => rfl

/-- Arguments in parentheses. -/
theorem reads_argumentList {β : Type} {args : List β} {piece : β → List BareToken} {view : β → Expr}
    (hpiece : ∀ a ∈ args, Heads (· ≠ .closeParen) (piece a))
    (hargs : ∀ a ∈ args, ReadsListed sub.wholeExpr .closeParen (piece a) fun e => e.bare = view a) :
    Reads (arguments sub) (paren (commas (args.map piece))) rest fun args' => bareExprs args' = args.map view := by
  refine (reads_expect (t := sign .openParen)).take fun _ _ => ?_
  exact (reads_commaList (by decide) Expr.bare view hpiece hargs).imp fun args' h => by rwa [bareExprs_eq_map]

/-- Arguments that each stand in parentheses of their own. -/
theorem reads_arguments {args : List Expr} (hargs : ∀ e ∈ args, ReadsOperand sub e) :
    Reads (arguments sub) (paren (commas (printExprs args))) rest fun args' => bareExprs args' = bareExprs args := by
  rw [printExprs_eq_map, bareExprs_eq_map]
  refine reads_argumentList (fun _ _ => heads_cons (by decide) _) fun e he t more ht => hargs e he _ _ ?_
  rcases ht with ht | ht <;> exact heads_cons (by rw [ht]; decide) more

/-- Template arguments with their brackets. -/
theorem reads_typeArguments {args : List TypeExpr} (hne : args ≠ []) (hargs : ∀ t ∈ args, ReadsInner sub t) :
    Reads (typeArguments sub) (printTypeArgs (printTypes args)) rest
      fun args' => bareTypes args' = bareTypes args := by
  rw [printTypes_eq_map]
  cases args with
  | nil => exact absurd rfl hne
  | cons t args =>
    refine (reads_expect (t := sign .less)).take fun _ _ => ?_
    refine (reads_commaSeparated .greater (by decide) rfl TypeExpr.bare TypeExpr.bare
      fun t ht s more hs => hargs t ht _ _ ?_).seq fun args' h => ?_
    · rcases hs with hs | hs <;> exact heads_cons (by rw [hs]; decide) more
    · exact (reads_expect (t := sign .greater)).last fun _ _ => reads_pure (by rwa [bareTypes_eq_map, bareTypes_eq_map])

theorem headKind_typeArgs {pieces : List (List BareToken)} {kind : TokenKind} (hkind : kind ≠ .less)
    (hrest : headKind rest ≠ some kind) : headKind (printTypeArgs pieces ++ rest) ≠ some kind := by
  cases pieces with
  | nil => exact hrest
  | cons piece pieces => exact fun h => hkind (Option.some.inj h).symm

/-! ## Types -/

theorem heads_type {t : TypeExpr} (h : t.WellFormed) : Heads startsType t.print := by
  obtain ⟨kind, span⟩ := t
  cases kind with
  | named path args => exact (heads_path h.1 trivial).append _
  | owner target constant => cases constant <;> exact heads_cons trivial _
  | shared target constant => cases constant <;> exact heads_cons trivial _
  | array element constant size => cases constant <;> exact heads_cons trivial _
  | func params variadic returns => exact heads_cons trivial _

/-- A type that no brackets follow. -/
theorem reads_type {Q : TypeExpr → Prop} {power : Power} (h : Reads (typeOperand sub) text rest Q)
    (hrest : Heads endsInner rest) : Reads (type sub power) text rest Q := by
  refine h.last fun t ht => reads_iterate_stop ht (reads_kind_of hrest fun kind hends => ?_)
  rw [if_neg fun h => hends.1 h.1]
  exact reads_pure rfl

theorem reads_namedType {names : List Ident} {args : List TypeExpr} (hne : names ≠ [])
    (hargs : ∀ t ∈ args, ReadsInner sub t) (hrest : Heads endsType rest) :
    Reads (namedType sub) (printPath names ++ printTypeArgs (printTypes args)) rest
      fun t => t.bare = .mk (TypeKind.named names args).bare .null := by
  refine (reads_path hne (headKind_typeArgs (by decide) (hrest.ne id))).seq fun names' hnames => ?_
  cases args with
  | nil =>
    refine reads_kind_of hrest fun kind hends => ?_
    rw [if_neg (by rintro rfl; exact hends)]
    refine reads_place _ fun span => ?_
    show TypeExpr.mk (.named (names'.map Ident.bare) []) .null = _
    rw [hnames]
    rfl
  | cons t args =>
    refine reads_kind .less rfl ?_
    rw [if_pos rfl]
    refine (reads_typeArguments (by simp) hargs).last fun args' hargs' => reads_place _ fun span => ?_
    show TypeExpr.mk (.named (names'.map Ident.bare) (bareTypes args')) .null = _
    rw [hnames, hargs']
    rfl

theorem reads_pointerType {target : TypeExpr} {sigil : TokenKind} {constant : Bool} (h : ReadsInner sub target)
    (hrest : Heads endsInner rest) :
    Reads (pointerType sub constant) (sign sigil :: paren target.print) rest
      fun t => t.bare = .mk (if sigil = .ampersand then .owner target.bare constant
        else .shared target.bare constant) .null := by
  refine reads_advance.take fun token htoken => ?_
  refine (h _ _ hrest).last fun target' htarget => ?_
  have hkind : token.kind = sigil := congrArg Prod.fst htoken
  rw [hkind]
  by_cases hsigil : sigil = .ampersand
  · simp only [if_pos hsigil]
    exact reads_pure (congrArg (fun t => TypeExpr.mk (.owner t constant) .null) htarget)
  · simp only [if_neg hsigil]
    exact reads_pure (congrArg (fun t => TypeExpr.mk (.shared t constant) .null) htarget)

/-- A type takes the place of the parentheses around it. -/
theorem reads_parenthesisedType {t : TypeExpr} (hwf : t.WellFormed) (h : ReadsType sub t)
    (hrest : headKind rest ≠ some .colon) :
    Reads (typeOperand sub) (paren t.print) rest fun t' => t'.bare = t.bare := by
  refine reads_kind .openParen rfl ?_
  refine reads_advance.take fun start _ => ?_
  refine (reads_parameters [t] TypeExpr.print false TypeExpr.bare TypeExpr.bare ?_ ?_).last fun params hread => ?_
  · intro x hx
    rw [List.mem_singleton.mp hx]
    exact (heads_type hwf).imp fun kind h => ⟨by rintro rfl; exact h, by rintro rfl; exact h⟩
  · intro x hx s more hs
    rw [List.mem_singleton.mp hx]
    refine h _ _ rfl ?_
    rcases hs with hs | hs <;> exact heads_cons (by rw [hs]; trivial) more
  obtain ⟨params, variadic⟩ := params
  obtain ⟨hparams, rfl⟩ := hread
  refine (reads_eat_other hrest).look fun eaten heaten => ?_
  subst heaten
  cases params with
  | nil => cases hparams
  | cons inner params =>
    obtain ⟨hinner, hnil⟩ := List.cons.inj hparams
    obtain rfl := List.map_eq_nil_iff.mp hnil
    exact reads_place _ fun span => by simpa using hinner

theorem reads_funcType {params : List TypeExpr} {variadic : Bool} {returns : TypeExpr}
    (hparams : ∀ t ∈ params, ReadsInner sub t) (hreturns : ReadsInner sub returns) (hrest : Heads endsInner rest) :
    Reads (parenthesisedType sub) (TypeKind.func params variadic returns).print rest
      fun t => t.bare = .mk (TypeKind.func params variadic returns).bare .null := by
  refine reads_advance.take fun start _ => ?_
  rw [printTypes_eq_map]
  refine (reads_parameters params (fun t => paren t.print) variadic TypeExpr.bare TypeExpr.bare
    (fun _ _ => heads_cons (by decide) _) fun t ht s more hs => hparams t ht _ _ ?_).seq fun read hread => ?_
  · rcases hs with hs | hs <;> exact heads_cons (by rw [hs]; decide) more
  obtain ⟨hread, hvariadic⟩ := hread
  refine (reads_eat (t := sign .colon)).take fun eaten heaten => ?_
  subst heaten
  refine (hreturns _ _ hrest).last fun returns' hreturns' => reads_place _ fun span => ?_
  show TypeExpr.mk (.func (bareTypes read.1) read.2 returns'.bare) .null = .mk (.func (bareTypes params) variadic returns.bare) .null
  rw [hreturns', hvariadic, bareTypes_eq_map, hread, bareTypes_eq_map]

theorem reads_arraySuffix {element : TypeExpr} {size : Option Expr} (hsize : ∀ e ∈ size, ReadsOperand sub e) :
    Reads (arraySuffix sub element) (bracket (printSize size)) rest
      fun t => t.bare = .mk (.array element.bare false (bareSize size)) .null := by
  refine (reads_expect (t := sign .openBracket)).take fun _ _ => ?_
  cases size with
  | none =>
    refine reads_kind .closeBracket rfl ?_
    rw [if_pos rfl]
    exact (reads_expect (t := sign .closeBracket)).last fun _ _ => reads_place _ fun _ => rfl
  | some size =>
    refine reads_kind .openParen rfl ?_
    rw [if_neg (by decide)]
    refine ((hsize size rfl _ _ ⟨.closeBracket, rfl, by decide⟩).map
      (R := fun size' => bareSize size' = bareSize (some size)) fun e he => ?_).seq fun size' h => ?_
    · exact congrArg some he
    exact (reads_expect (t := sign .closeBracket)).last fun _ _ => reads_place _ fun _ =>
      congrArg (fun size => TypeExpr.mk (.array element.bare false size) .null) h

/-- An array's element, and its brackets, where the power leaves them to it. -/
theorem reads_arrayType {element : TypeExpr} {size : Option Expr} {power : Power} (hwf : element.WellFormed)
    (helement : ReadsType sub element) (hsize : ∀ e ∈ size, ReadsOperand sub e)
    (hpower : Power.call.tighter power = true) (hrest : Heads endsInner rest) :
    Reads (type sub power) (paren element.print ++ bracket (printSize size)) rest
      fun t => t.bare = .mk (.array element.bare false (bareSize size)) .null := by
  refine (reads_parenthesisedType hwf helement (by simp [bracket, sign])).seq fun element' helement' => ?_
  refine reads_iterate_once (by simp [bracket]) ?_ fun t _ => ?_
  · refine reads_kind .openBracket rfl ?_
    rw [if_pos ⟨rfl, hpower⟩]
    exact (reads_arraySuffix hsize).map fun t ht => ⟨t, rfl, by rw [ht, helement']⟩
  · refine reads_kind_of hrest fun kind hends => ?_
    rw [if_neg fun h => hends.1 h.1]
    exact reads_pure rfl

theorem reads_constPointer {target : TypeExpr} {sigil : TokenKind} (hsigil : sigil = .ampersand ∨ sigil = .star)
    (h : ReadsInner sub target) (hrest : Heads endsInner rest) :
    Reads (constType sub) (sign .kwConst :: sign sigil :: paren target.print) rest
      fun t => t.bare = .mk (if sigil = .ampersand then .owner target.bare true
        else .shared target.bare true) .null := by
  refine reads_advance.take fun start _ => reads_kind sigil rfl ?_
  have hpointer : Reads (pointerType sub true) (sign sigil :: paren target.print) rest _ :=
    reads_pointerType h hrest
  rcases hsigil with rfl | rfl <;>
    exact hpointer.last fun t ht => reads_place _ fun span => by rw [type_bare_withSpan, ht]

/-- `const` in front of an array that is read at the power of a sigil. -/
theorem reads_constArray {element : TypeExpr} {size : Option Expr}
    (h : Reads (sub (.type .unary)) (paren element.print ++ bracket (printSize size)) rest
      fun t : TypeExpr => t.bare = .mk (.array element.bare false (bareSize size)) .null) :
    Reads (constType sub) (sign .kwConst :: (paren element.print ++ bracket (printSize size))) rest
      fun t => t.bare = .mk (.array element.bare true (bareSize size)) .null := by
  refine reads_advance.take fun start _ => reads_kind .openParen rfl ?_
  refine h.last fun t ht => ?_
  obtain ⟨kind, span⟩ := t
  cases kind with
  | array element' constant size' =>
    simp only [TypeExpr.bare, TypeKind.bare, TypeExpr.mk.injEq, TypeKind.array.injEq] at ht
    exact (reads_pure rfl).look fun t ht' => reads_place _ fun span => by
      simp [← ht', TypeExpr.bare, TypeKind.bare, ht.1.1, ht.1.2.2]
  | _ => cases ht

end OwnLang.Grammar
