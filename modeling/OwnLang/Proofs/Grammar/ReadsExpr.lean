import OwnLang.Grammar.Basic
import OwnLang.Proofs.Grammar.ReadsType

/-!
# Reading expressions back

One rule for each form of an expression, first those that are operands, then the operators behind an
operand. `ReadsTerms.step` puts them together: one more step of the grammar reads back types and
expressions with one more token.
-/

namespace OwnLang.Grammar

open Surface Parse
open TokenKind (sign)

variable {sub : Readers} {text text' rest : List BareToken}

theorem heads_expr {e : Expr} (h : e.WellFormed) : Heads startsExpr e.print := by
  obtain ⟨kind, span⟩ := e
  cases kind with
  | path path args => exact (heads_path h.1 trivial).append _
  | macroCall path args => exact (heads_path h.1 trivial).append _
  | bool value => cases value <;> exact heads_cons trivial _
  | unary op operand => cases op <;> exact heads_cons trivial _
  | structInit type fields heap =>
    cases heap with
    | true => exact heads_cons trivial _
    | false =>
      obtain ⟨htype, -, hnamed⟩ := h
      obtain ⟨path, args, hkind⟩ := hnamed rfl
      obtain ⟨kind, span⟩ := type
      obtain rfl : kind = .named path args := hkind
      exact ((heads_path htype.1 trivial).append _).append _
  | arrayInit element values heap => cases heap <;> exact heads_cons trivial _
  | arrayFill element size value heap => cases heap <;> exact heads_cons trivial _
  | _ => exact heads_cons trivial _

theorem operator?_of_ends {kind : TokenKind} (h : endsOperand kind) : operator? sub kind = none := by
  obtain ⟨hparen, hbracket, hdot, hbinary⟩ := h
  unfold operator?
  split
  · contradiction
  · contradiction
  · contradiction
  · rw [hbinary, Option.map_none]

/-- An operand that no operator follows. -/
theorem reads_expr {Q : Expr → Prop} {power : Power} (h : Reads (operand sub) text rest Q)
    (hrest : Heads endsOperand rest) : Reads (expr sub power) text rest Q := by
  refine h.last fun e he => reads_iterate_stop he (reads_kind_of hrest fun kind hends => ?_)
  rw [operator?_of_ends hends]
  exact reads_pure rfl

/-- An operand and one operator behind it. -/
theorem reads_extended {Q R : Expr → Prop} {power own : Power} {kind : TokenKind} {extend : Expr → Parse Expr}
    (h : Reads (operand sub) text (text' ++ rest) Q) (hkind : headKind text' = some kind)
    (hoperator : operator? sub kind = some (own, extend)) (hpower : own.tighter power = true)
    (hextend : ∀ left, Q left → Reads (extend left) text' rest R) (hrest : Heads endsOperand rest) :
    Reads (expr sub power) (text ++ text') rest R := by
  have htext : text' ≠ [] := by
    rintro rfl
    cases hkind
  refine h.seq fun left hleft => reads_iterate_once htext ?_ fun e _ => ?_
  · refine reads_kind kind (by rw [headKind_append htext, hkind]) ?_
    simp only [hoperator]
    rw [if_pos hpower]
    exact (hextend left hleft).map fun e he => ⟨e, rfl, he⟩
  · refine reads_kind_of hrest fun kind hends => ?_
    rw [operator?_of_ends hends]
    exact reads_pure rfl

/-! ### Operands without operands inside -/

theorem decimalValue_toString (n : Nat) : decimalValue (toString n).toList = n := by
  have hdigits : (toString n).toList = Nat.toDigits 10 n := String.toList_ofList
  rw [hdigits]
  exact Nat.ofDigitChars_toDigits (by decide) (by decide)

theorem reads_number {digits : String} {value : Nat} (hvalue : decimalValue digits.toList = value)
    (h : value < wordBound) :
    Reads number [(.number, digits)] rest fun e => e.bare = .mk (.number value) .null := by
  refine reads_advance.last fun token htoken => ?_
  rw [show token.value = digits from congrArg Prod.snd htoken, hvalue, if_pos h]
  exact reads_pure rfl

theorem reads_leaf {t : BareToken} {node : Token → ExprKind} {kind : ExprKind}
    (h : ∀ token : Token, token.bare = t → (node token).bare = kind) :
    Reads (leaf node) [t] rest fun e => e.bare = .mk kind .null :=
  reads_advance.last fun token htoken => reads_pure (congrArg (Expr.mk · .null) (h token htoken))

/-! ### Operands that start with a name -/

theorem reads_noTemplateArguments (h : headKind rest ≠ some .less) :
    Reads (templateArguments sub) [] rest fun args => args = [] := by
  refine reads_kind_ne .less ?_ fun kind hkind => ?_
  · exact h
  rw [if_neg hkind]
  exact reads_pure rfl

theorem reads_templateArguments {args : List TypeExpr} (hargs : ∀ t ∈ args, ReadsInner sub t)
    (hrest : Heads (fun kind => followsTemplateArguments kind = true) rest) :
    Reads (templateArguments sub) (printTypeArgs (printTypes args)) rest
      fun args' => bareTypes args' = bareTypes args := by
  cases args with
  | nil => exact (reads_noTemplateArguments (hrest.ne (by decide))).imp fun args' h => by rw [h]
  | cons t args =>
    refine reads_kind .less rfl ?_
    rw [if_pos rfl]
    refine (reads_speculate (reads_typeArguments (List.cons_ne_nil _ _) hargs) fun d hd => ?_).last
      fun result hresult => ?_
    · obtain ⟨kind, hkind, hfollows⟩ := hrest
      rwa [Cursor.kind_of_ahead hd hkind]
    · obtain ⟨args', rfl, hargs'⟩ := hresult
      exact reads_pure hargs'

theorem reads_pathExpr {names : List Ident} {args : List TypeExpr} (hne : names ≠ [])
    (hargs : ∀ t ∈ args, ReadsInner sub t) (hrest : Heads endsExpr rest) :
    Reads (named sub) (printPath names ++ printTypeArgs (printTypes args)) rest
      fun e => e.bare = .mk (ExprKind.path names args).bare .null := by
  refine (reads_path hne (headKind_typeArgs (by decide) (hrest.ne id))).seq fun names' hnames => ?_
  refine (reads_templateArguments hargs (hrest.imp followsTemplateArguments_of_endsExpr)).last fun args' hargs' => ?_
  refine reads_kind_of hrest fun kind hends => reads_peek_any fun _ => ?_
  rw [if_neg (by rintro ⟨rfl, -⟩; exact hends)]
  refine reads_get.look fun c hc => ?_
  rw [if_neg]
  · refine reads_place _ fun span => ?_
    show Expr.mk (.path (names'.map Ident.bare) (bareTypes args')) .null = _
    rw [hnames, hargs']
    rfl
  · intro hopens
    obtain ⟨kind, hkind, hends⟩ := hrest
    simp only [opensFields, Bool.and_eq_true, decide_eq_true_eq] at hopens
    rw [Cursor.kind_of_ahead hc hkind] at hopens
    rw [hopens.1] at hends
    exact hends

theorem reads_macroCall {names : List Ident} {args : List Expr} (hne : names ≠ [])
    (hargs : ∀ e ∈ args, ReadsOperand sub e) :
    Reads (named sub) (printPath names ++ sign .not :: paren (commas (printExprs args))) rest
      fun e => e.bare = .mk (ExprKind.macroCall names args).bare .null := by
  refine (reads_path hne (by simp)).seq fun names' hnames => ?_
  refine (reads_noTemplateArguments (by simp)).look fun targs htargs => ?_
  subst htargs
  refine reads_kind .not rfl (reads_peek (t := sign .openParen) rfl ?_)
  rw [if_pos ⟨rfl, rfl, rfl⟩]
  refine reads_advance.take fun _ _ => (reads_arguments hargs).last fun args' hargs' => ?_
  refine reads_place _ fun span => ?_
  show Expr.mk (.macroCall (names'.map Ident.bare) (bareExprs args')) .null = _
  rw [hnames, hargs']
  rfl

theorem reads_structFields {type : TypeExpr} {fields : List (Ident × Expr)} {heap : Bool}
    (hfields : ∀ field ∈ fields, ReadsOperand sub field.2) :
    Reads (structFields sub type heap) (curly (commas (printFields fields))) rest
      fun e => e.bare = .mk (.structInit type.bare (bareFields fields) heap) .null := by
  refine (reads_expect (t := sign .openCurly)).take fun _ _ => ?_
  rw [printFields_eq_map]
  refine (reads_commaList (by decide) (fun field => (field.1.bare, field.2.bare))
    (fun field => (field.1.bare, field.2.bare))
    (fun _ _ => heads_cons (show TokenKind.identifier ≠ .closeCurly by decide) _)
    fun field hfield t more ht => ?_).last fun read hread => ?_
  · refine (reads_ident field.1).take fun name hname => (reads_expect (t := sign .colon)).take fun _ _ => ?_
    refine (hfields field hfield _ _ ?_).last fun value hvalue => reads_pure (by rw [hname, hvalue])
    rcases ht with ht | ht <;> exact heads_cons (by rw [ht]; decide) more
  · refine reads_place _ fun span => ?_
    show Expr.mk (.structInit type.bare (bareFields read) heap) .null = _
    rw [bareFields_eq_map, hread, bareFields_eq_map]

theorem opensFields_of_ahead {c : Cursor} {fields : List (Ident × Expr)}
    (h : c.ahead = curly (commas (printFields fields)) ++ rest) : opensFields c = true := by
  have hkind : c.kind = .openCurly := Cursor.kind_of_ahead h rfl
  cases fields with
  | nil =>
    have hpeek : c.peek 1 = .closeCurly := Cursor.peek_of_ahead (t := sign .closeCurly) (by rw [h]; rfl)
    simp [opensFields, hkind, hpeek]
  | cons field fields =>
    rw [printFields_eq_map] at h
    have hname : c.peek 1 = .identifier := Cursor.peek_of_ahead (t := field.1.print) (by rw [h]; cases fields <;> rfl)
    have hcolon : c.peek 2 = .colon := Cursor.peek_of_ahead (t := sign .colon) (by rw [h]; cases fields <;> rfl)
    simp [opensFields, hkind, hname, hcolon]

theorem reads_structValue {names : List Ident} {args : List TypeExpr} {fields : List (Ident × Expr)}
    (hne : names ≠ []) (hargs : ∀ t ∈ args, ReadsInner sub t)
    (hfields : ∀ field ∈ fields, ReadsOperand sub field.2) :
    Reads (named sub) ((printPath names ++ printTypeArgs (printTypes args)) ++ curly (commas (printFields fields)))
      rest fun e => e.bare =
        .mk (.structInit (.mk (TypeKind.named names args).bare .null) (bareFields fields) false) .null := by
  rw [List.append_assoc]
  refine (reads_path hne ?_).seq fun names' hnames => ?_
  · rw [List.append_assoc]
    exact headKind_typeArgs (by decide) (by simp [curly])
  refine (reads_templateArguments hargs ⟨.openCurly, rfl, rfl⟩).seq fun args' hargs' => ?_
  refine reads_kind .openCurly rfl (reads_peek_any fun _ => ?_)
  rw [if_neg (by rintro ⟨⟨⟩, -⟩)]
  refine reads_get.look fun c hc => ?_
  rw [if_pos (opensFields_of_ahead hc)]
  refine (reads_structFields hfields).imp fun e he => ?_
  have hbare : (TypeKind.named names' args').bare = (TypeKind.named names args).bare := by
    show TypeKind.named (names'.map Ident.bare) (bareTypes args') = _
    rw [hnames, hargs']
    rfl
  rw [he, ← hbare]
  rfl

/-! ### Operands that start with a sign -/

theorem reads_prefixed {sigil : TokenKind} {node : Expr → ExprKind} {e : Expr} {kind : ExprKind}
    (h : Reads (sub (.expr .unary)) text rest fun e' : Expr => e'.bare = e)
    (hnode : ∀ e' : Expr, e'.bare = e → (node e').bare = kind) :
    Reads (prefixed sub node) (sign sigil :: text) rest fun e' => e'.bare = .mk kind .null := by
  refine reads_advance.take fun token _ => h.last fun e' he => ?_
  exact reads_pure (congrArg (Expr.mk · .null) (hnode e' he))

theorem reads_reference {e : Expr} {constant : Bool}
    (h : Reads (sub (.expr .unary)) text rest fun e' : Expr => e'.bare = e)
    (htext : headKind (text ++ rest) ≠ some .kwConst) :
    Reads (reference sub) (sign .ampersand :: (signIf constant .kwConst ++ text)) rest
      fun e' => e'.bare = .mk (.ref e constant) .null := by
  refine reads_advance.take fun token _ => ?_
  have heat : Reads (eat .kwConst) (signIf constant .kwConst) (text ++ rest) (· = constant) := by
    cases constant with
    | true => exact reads_eat (t := sign .kwConst)
    | false => exact reads_eat_other htext
  refine heat.seq fun constant' hconstant => h.last fun e' he => reads_pure ?_
  show Expr.mk (.ref e'.bare constant') .null = _
  rw [he, hconstant]

/-- An expression takes the place of the parentheses around it. -/
theorem reads_parenthesised {e : Expr} (h : ReadsExpr sub e) :
    Reads (operand sub) (paren e.print) rest fun e' => e'.bare = e.bare := by
  refine reads_kind .openParen rfl ?_
  refine reads_advance.take fun start _ => (h _ (heads_cons trivial _)).seq fun e' he => ?_
  refine (reads_expect (t := sign .closeParen)).last fun _ _ => reads_place _ fun span => ?_
  rw [bare_withSpan, he]

theorem reads_arrayInit {element : TypeExpr} {values : List Expr} {heap : Bool} (helement : ReadsInner sub element)
    (hvalues : ∀ e ∈ values, ReadsOperand sub e) :
    Reads (array sub heap) (bracket [] ++ (paren element.print ++ curly (commas (printExprs values)))) rest
      fun e => e.bare = .mk (.arrayInit element.bare (bareExprs values) heap) .null := by
  refine (reads_expect (t := sign .openBracket)).take fun start _ => reads_kind .closeBracket rfl ?_
  rw [if_pos rfl]
  refine (reads_expect (t := sign .closeBracket)).take fun _ _ => ?_
  refine (helement _ _ ⟨.openCurly, rfl, by decide⟩).seq fun element' helement' => ?_
  refine (reads_expect (t := sign .openCurly)).take fun _ _ => ?_
  rw [printExprs_eq_map]
  refine (reads_commaList (by decide) Expr.bare Expr.bare (fun _ _ => heads_cons (by decide) _)
    fun e he t more ht => hvalues e he _ _ ?_).last fun values' hread => reads_place _ fun span => ?_
  · rcases ht with ht | ht <;> exact heads_cons (by rw [ht]; decide) more
  · show Expr.mk (.arrayInit element'.bare (bareExprs values') heap) .null = _
    rw [helement', bareExprs_eq_map, hread, bareExprs_eq_map]

theorem reads_arrayFill {element : TypeExpr} {size value : Expr} {heap : Bool} (helement : ReadsInner sub element)
    (hsize : ReadsOperand sub size) (hvalue : ReadsOperand sub value) :
    Reads (array sub heap) (bracket (paren size.print) ++ (paren element.print ++ curly (paren value.print))) rest
      fun e => e.bare = .mk (.arrayFill element.bare size.bare value.bare heap) .null := by
  rw [bracket, List.cons_append, List.append_assoc]
  refine (reads_expect (t := sign .openBracket)).take fun start _ => reads_kind .openParen rfl ?_
  rw [if_neg (by decide)]
  refine ((hsize _ _ ⟨.closeBracket, rfl, by decide⟩).map
    (R := fun size' => ∃ e : Expr, size' = some e ∧ e.bare = size.bare) fun e he => ⟨e, rfl, he⟩).seq
    fun size' hread => ?_
  obtain ⟨size', rfl, hsize'⟩ := hread
  refine (reads_expect (t := sign .closeBracket)).take fun _ _ => ?_
  refine (helement _ _ ⟨.openCurly, rfl, by decide⟩).seq fun element' helement' => ?_
  refine (reads_expect (t := sign .openCurly)).take fun _ _ => ?_
  refine (hvalue _ _ ⟨.closeCurly, rfl, by decide⟩).seq fun value' hvalue' => ?_
  refine (reads_expect (t := sign .closeCurly)).last fun _ _ => reads_place _ fun span => ?_
  show Expr.mk (.arrayFill element'.bare size'.bare value'.bare heap) .null = _
  rw [helement', hsize', hvalue']

theorem reads_allocation {e : Expr} (h : ∀ start, Reads (allocated sub start) text rest fun e' => e'.bare = e) :
    Reads (allocation sub) (sign .kwNew :: text) rest fun e' => e'.bare = e := by
  refine reads_advance.take fun start _ => (h start.span).last fun e' he => reads_place _ fun span => ?_
  rw [bare_withSpan, he]

theorem reads_allocatedArray {Q : Expr → Prop} (start : Span) (h : Reads (array sub true) text rest Q)
    (htext : headKind (text ++ rest) = some .openBracket) : Reads (allocated sub start) text rest Q := by
  refine reads_kind .openBracket htext ?_
  rwa [if_pos rfl]

theorem reads_allocatedStruct {type : TypeExpr} {fields : List (Ident × Expr)} (start : Span)
    (htype : ReadsInner sub type) (hfields : ∀ field ∈ fields, ReadsOperand sub field.2) :
    Reads (allocated sub start) (paren type.print ++ curly (commas (printFields fields))) rest
      fun e => e.bare = .mk (.structInit type.bare (bareFields fields) true) .null := by
  refine reads_kind .openParen rfl ?_
  rw [if_neg (by decide)]
  refine (htype _ _ ⟨.openCurly, rfl, by decide⟩).seq fun type' htype' => ?_
  refine reads_kind .openCurly rfl ?_
  rw [if_pos rfl]
  exact (reads_structFields hfields).imp fun e he => by rw [he, htype']

theorem reads_allocatedValue {type : TypeExpr} {value : Expr} (start : Span)
    (htype : ReadsInner sub type) (hvalue : ReadsExpr sub value) :
    Reads (allocated sub start) (paren type.print ++ paren value.print) rest
      fun e => e.bare = .mk (.new type.bare value.bare) .null := by
  refine reads_kind .openParen rfl ?_
  rw [if_neg (by decide)]
  refine (htype _ _ ⟨.openParen, rfl, by decide⟩).seq fun type' htype' => ?_
  refine reads_kind .openParen rfl ?_
  rw [if_neg (by decide)]
  refine (reads_expect (t := sign .openParen)).take fun _ _ => ?_
  refine (hvalue _ (heads_cons trivial _)).seq fun value' hvalue' => ?_
  refine (reads_expect (t := sign .closeParen)).last fun _ _ => reads_place _ fun span => ?_
  show Expr.mk (.new type'.bare value'.bare) .null = _
  rw [htype', hvalue']

/-! ### Operators behind an operand -/

theorem reads_call {callee : Expr} {args : List Expr}
    (hargs : Reads (arguments sub) text rest fun args' => bareExprs args' = args) :
    Reads (call sub callee) text rest fun e => e.bare = .mk (.call callee.bare args) .null :=
  hargs.last fun args' hargs' => reads_place _ fun span => by
    show Expr.mk (.call callee.bare (bareExprs args')) .null = _
    rw [hargs']

theorem reads_index {base position : Expr}
    (h : Reads sub.wholeExpr text (sign .closeBracket :: rest) fun e => e.bare = position) :
    Reads (index sub base) (bracket text) rest fun e => e.bare = .mk (.index base.bare position) .null := by
  refine (reads_expect (t := sign .openBracket)).take fun _ _ => ?_
  refine h.seq fun position' hposition => ?_
  refine (reads_expect (t := sign .closeBracket)).last fun _ _ => reads_place _ fun span => ?_
  show Expr.mk (.index base.bare position'.bare) .null = _
  rw [hposition]

theorem reads_member {base : Expr} {name : Ident} :
    Reads (member base) [sign .dot, name.print] rest
      fun e => e.bare = .mk (.member base.bare name.bare) .null := by
  refine (reads_expect (t := sign .dot)).take fun _ _ => (reads_ident name).last fun name' hname => reads_pure ?_
  show Expr.mk (.member base.bare name'.bare) .null = _
  rw [hname]

theorem reads_binary {op : BinaryOp} {left right : Expr}
    (h : Reads (sub (.expr (operatorPower op))) text rest fun e : Expr => e.bare = right) :
    Reads (binary sub op left) (sign (.ofBinary op) :: text) rest
      fun e => e.bare = .mk (.binary op left.bare right) .null := by
  refine reads_advance.take fun _ _ => h.last fun right' hright => reads_pure ?_
  show Expr.mk (.binary op left.bare right'.bare) .null = _
  rw [hright]

theorem operator?_ofBinary (op : BinaryOp) :
    operator? sub (.ofBinary op) = some (operatorPower op, binary sub op) := by
  cases op <;> rfl

theorem operatorPower_tighter (op : BinaryOp) : (operatorPower op).tighter .lowest = true := by
  cases op <;> rfl

/-! ## All forms -/

/-- The readers `sub` read back every type and every expression of at most `n` tokens. -/
structure ReadsTerms (sub : Readers) (n : Nat) : Prop where
  expr : ∀ e : Expr, e.WellFormed → e.print.length ≤ n → ReadsExpr sub e
  operand : ∀ e : Expr, e.WellFormed → (paren e.print).length ≤ n → ReadsOperand sub e
  type : ∀ t : TypeExpr, t.WellFormed → t.print.length ≤ n → ReadsType sub t
  inner : ∀ t : TypeExpr, t.WellFormed → (paren t.print).length ≤ n → ReadsInner sub t

theorem length_le_commas {piece : List BareToken} {pieces : List (List BareToken)} (h : piece ∈ pieces) :
    piece.length ≤ (commas pieces).length := by
  fun_induction commas pieces with
  | case1 => cases h
  | case2 first => rw [List.mem_singleton.mp h]
  | case3 first next rest ih =>
    rw [List.length_append, List.length_cons]
    rcases List.mem_cons.mp h with rfl | h
    · omega
    · have := ih h
      omega

theorem length_commas_le (pieces more : List (List BareToken)) :
    (commas pieces).length ≤ (commas (pieces ++ more)).length := by
  fun_induction commas pieces with
  | case1 => exact Nat.zero_le _
  | case2 piece => exact length_le_commas List.mem_cons_self
  | case3 piece next rest ih =>
    simp only [List.cons_append, commas, List.length_append, List.length_cons] at ih ⊢
    omega

theorem length_commas_le_typeArgs (pieces : List (List BareToken)) :
    (commas pieces).length ≤ (printTypeArgs pieces).length - 1 := by
  cases pieces with
  | nil => exact Nat.zero_le _
  | cons piece pieces => simp [printTypeArgs]

@[simp] theorem length_paren (text : List BareToken) : (paren text).length = text.length + 2 := by simp [paren]

@[simp] theorem length_curly (text : List BareToken) : (curly text).length = text.length + 2 := by simp [curly]

@[simp] theorem length_bracket (text : List BareToken) : (bracket text).length = text.length + 2 := by
  simp [bracket]

namespace ReadsTerms

variable {n : Nat}

theorem operands (h : ReadsTerms sub n) {args : List Expr} (hwf : WellFormedExprs args)
    (hlen : (commas (printExprs args)).length ≤ n) : ∀ e ∈ args, ReadsOperand sub e := by
  intro e he
  refine h.operand e ((wellFormedExprs_iff args).mp hwf e he) (le_trans (length_le_commas ?_) hlen)
  rw [printExprs_eq_map]
  exact List.mem_map_of_mem he

theorem fields (h : ReadsTerms sub n) {fields : List (Ident × Expr)} (hwf : WellFormedFields fields)
    (hlen : (commas (printFields fields)).length ≤ n) : ∀ field ∈ fields, ReadsOperand sub field.2 := by
  intro field hfield
  have hpiece : field.1.print :: sign .colon :: paren field.2.print ∈ printFields fields := by
    rw [printFields_eq_map]
    exact List.mem_map_of_mem hfield
  refine h.operand field.2 ((wellFormedFields_iff fields).mp hwf field hfield) ?_
  have hlength := le_trans (length_le_commas hpiece) hlen
  simp only [List.length_cons] at hlength
  omega

theorem inners (h : ReadsTerms sub n) {args : List TypeExpr} (hwf : WellFormedTypes args)
    (hlen : (commas (printTypes args)).length ≤ n) : ∀ t ∈ args, ReadsInner sub t := by
  intro t ht
  refine h.inner t ((wellFormedTypes_iff args).mp hwf t ht) (le_trans (length_le_commas ?_) hlen)
  rw [printTypes_eq_map]
  exact List.mem_map_of_mem ht

theorem readsType (h : ReadsTerms sub n) {t : TypeExpr} (hwf : t.WellFormed) (hlen : t.print.length ≤ n + 1) :
    ReadsType (step sub) t := by
  intro power rest hpower hrest
  have hinner := hrest.imp endsInner_of_endsType
  obtain ⟨kind, span⟩ := t
  cases kind with
  | named path args =>
    simp only [TypeExpr.print, TypeKind.print, List.length_append] at hlen
    have hargs := h.inners hwf.2 (by have := length_commas_le_typeArgs (printTypes args); omega)
    exact reads_type (reads_kind .identifier (headKind_path hwf.1 _ rest) (reads_namedType hwf.1 hargs hrest)) hinner
  | owner target constant =>
    simp only [TypeExpr.print, TypeKind.print] at hlen
    cases constant with
    | true =>
      have htarget := h.inner target hwf (by simp [signIf] at hlen ⊢; omega)
      exact reads_type (reads_kind .kwConst rfl (reads_constPointer (.inl rfl) htarget hinner)) hinner
    | false =>
      have htarget := h.inner target hwf (by simp [signIf] at hlen ⊢; omega)
      exact reads_type (reads_kind .ampersand rfl (reads_pointerType htarget hinner)) hinner
  | shared target constant =>
    simp only [TypeExpr.print, TypeKind.print] at hlen
    cases constant with
    | true =>
      have htarget := h.inner target hwf (by simp [signIf] at hlen ⊢; omega)
      exact reads_type (reads_kind .kwConst rfl (reads_constPointer (.inr rfl) htarget hinner)) hinner
    | false =>
      have htarget := h.inner target hwf (by simp [signIf] at hlen ⊢; omega)
      exact reads_type (reads_kind .star rfl (reads_pointerType htarget hinner)) hinner
  | array element constant size =>
    simp only [TypeExpr.print, TypeKind.print, List.length_append, length_paren, length_bracket] at hlen
    cases constant with
    | true =>
      -- the array behind `const` is a type of its own
      have harray := h.type (.mk (.array element false size) .null) hwf
        (by simp [TypeExpr.print, TypeKind.print, signIf] at hlen ⊢; omega)
      exact reads_type (reads_kind .kwConst rfl (reads_constArray (harray .unary rest rfl hrest))) hinner
    | false =>
      have helement := h.type element hwf.1 (by omega)
      have hsize : ∀ e ∈ size, ReadsOperand sub e := by
        rintro e ⟨⟩
        exact h.operand e hwf.2 (by simp [printSize] at hlen ⊢; omega)
      exact reads_arrayType hwf.1 helement hsize hpower hinner
  | func params variadic returns =>
    simp only [TypeExpr.print, TypeKind.print, printParams, List.length_append, List.length_cons,
      length_paren] at hlen
    have hle := length_commas_le (printTypes params) (if variadic then [[sign .ellipsis]] else [])
    exact reads_type (reads_kind .openParen rfl (reads_funcType (h.inners hwf.1 (by omega))
      (h.inner returns hwf.2 (by rw [length_paren]; omega)) hinner)) hinner

theorem readsInner (h : ReadsTerms sub n) {t : TypeExpr} (hwf : t.WellFormed)
    (hlen : (paren t.print).length ≤ n + 1) : ReadsInner (step sub) t := by
  intro power rest hrest
  rw [length_paren] at hlen
  exact reads_type (reads_parenthesisedType hwf (h.type t hwf (by omega)) (hrest.ne fun h => h.2 rfl)) hrest

theorem readsOperand (h : ReadsTerms sub n) {e : Expr} (hwf : e.WellFormed)
    (hlen : (paren e.print).length ≤ n + 1) : ReadsOperand (step sub) e := by
  intro power rest hrest
  rw [length_paren] at hlen
  exact reads_expr (reads_parenthesised (h.expr e hwf (by omega))) hrest

theorem readsExpr (h : ReadsTerms sub n) {e : Expr} (hwf : e.WellFormed) (hlen : e.print.length ≤ n + 1) :
    ReadsExpr (step sub) e := by
  intro rest hrest
  have hends := hrest.imp endsOperand_of_endsExpr
  obtain ⟨kind, span⟩ := e
  cases kind with
  | number value => exact reads_expr (reads_kind .number rfl (reads_number (decimalValue_toString value) hwf)) hends
  | bool value =>
    cases value with
    | true => exact reads_expr (reads_kind .kwTrue rfl (reads_leaf fun _ _ => rfl)) hends
    | false => exact reads_expr (reads_kind .kwFalse rfl (reads_leaf fun _ _ => rfl)) hends
  | str text =>
    refine reads_expr (reads_kind .string rfl (reads_leaf fun token htoken => ?_)) hends
    exact congrArg ExprKind.str (congrArg Prod.snd htoken)
  | path path args =>
    simp only [Expr.print, ExprKind.print, List.length_append] at hlen
    have hargs := h.inners hwf.2 (by have := length_commas_le_typeArgs (printTypes args); omega)
    exact reads_expr (reads_kind .identifier (headKind_path hwf.1 _ rest) (reads_pathExpr hwf.1 hargs hrest)) hends
  | macroCall path args =>
    simp only [Expr.print, ExprKind.print, List.length_append, List.length_cons, length_paren] at hlen
    have hargs := h.operands hwf.2 (by omega)
    exact reads_expr (reads_kind .identifier (headKind_path hwf.1 _ rest) (reads_macroCall hwf.1 hargs)) hends
  | call callee args =>
    simp only [Expr.print, ExprKind.print, List.length_append, length_paren] at hlen
    have hcallee := h.expr callee hwf.1 (by omega)
    have hargs := h.operands hwf.2 (by omega)
    refine reads_extended (reads_parenthesised hcallee) rfl rfl rfl (fun left hleft => ?_) hends
    exact (reads_call (reads_arguments hargs)).imp fun e he => by rw [he, hleft]; rfl
  | index base index =>
    simp only [Expr.print, ExprKind.print, List.length_append, length_paren, length_bracket] at hlen
    have hbase := h.expr base hwf.1 (by omega)
    have hindex := h.operand index hwf.2 (by rw [length_paren]; omega)
    refine reads_extended (reads_parenthesised hbase) rfl rfl rfl (fun left hleft => ?_) hends
    exact (reads_index (hindex _ _ ⟨.closeBracket, rfl, by decide⟩)).imp fun e he => by rw [he, hleft]; rfl
  | member base name =>
    simp only [Expr.print, ExprKind.print, List.length_append, length_paren] at hlen
    have hbase := h.expr base hwf (by omega)
    refine reads_extended (reads_parenthesised hbase) rfl rfl rfl (fun left hleft => ?_) hends
    exact reads_member.imp fun e he => by rw [he, hleft]; rfl
  | binary op left right =>
    simp only [Expr.print, ExprKind.print, List.length_append, List.length_cons, length_paren] at hlen
    have hleft := h.expr left hwf.1 (by omega)
    have hright := h.operand right hwf.2 (by rw [length_paren]; omega)
    refine reads_extended (reads_parenthesised hleft) rfl (operator?_ofBinary op) (operatorPower_tighter op)
      (fun left hleft => ?_) hends
    exact (reads_binary (hright _ _ hends)).imp fun e he => by rw [he, hleft]; rfl
  | unary op operand =>
    simp only [Expr.print, ExprKind.print, List.length_cons] at hlen
    have hprefixed : Reads (prefixed sub (.unary op)) (sign (.ofUnary op) :: paren operand.print) rest _ :=
      reads_prefixed (h.operand operand hwf (by omega) _ _ hends) fun e he => congrArg (ExprKind.unary op) he
    cases op with
    | neg => exact reads_expr (reads_kind .dash rfl hprefixed) hends
    | not => exact reads_expr (reads_kind .not rfl hprefixed) hends
  | ref target constant =>
    simp only [Expr.print, ExprKind.print, List.length_cons, List.length_append] at hlen
    have htarget := h.operand target hwf (by omega)
    exact reads_expr (reads_kind .ampersand rfl (reads_reference (htarget _ _ hends) (by simp [paren]))) hends
  | deref pointer =>
    simp only [Expr.print, ExprKind.print, List.length_cons] at hlen
    have hpointer := h.operand pointer hwf (by omega)
    exact reads_expr (reads_kind .star rfl
      (reads_prefixed (hpointer _ _ hends) fun e he => congrArg ExprKind.deref he)) hends
  | share owner =>
    simp only [Expr.print, ExprKind.print, List.length_cons] at hlen
    have howner := h.operand owner hwf (by omega)
    exact reads_expr (reads_kind .hash rfl
      (reads_prefixed (howner _ _ hends) fun e he => congrArg ExprKind.share he)) hends
  | new type value =>
    simp only [Expr.print, ExprKind.print, List.length_cons, List.length_append, length_paren] at hlen
    have htype := h.inner type hwf.1 (by rw [length_paren]; omega)
    have hvalue := h.expr value hwf.2 (by omega)
    exact reads_expr (reads_kind .kwNew rfl
      (reads_allocation fun start => reads_allocatedValue start htype hvalue)) hends
  | structInit type fields heap =>
    obtain ⟨hwftype, hwffields, hnamed⟩ := hwf
    simp only [Expr.print, ExprKind.print, List.length_append, length_curly] at hlen
    have hfields := h.fields hwffields (by omega)
    cases heap with
    | true =>
      have htype := h.inner type hwftype (by simp [signIf] at hlen ⊢; omega)
      exact reads_expr (reads_kind .kwNew rfl
        (reads_allocation fun start => reads_allocatedStruct start htype hfields)) hends
    | false =>
      obtain ⟨path, args, hkind⟩ := hnamed rfl
      obtain ⟨kind, span⟩ := type
      obtain rfl : kind = .named path args := hkind
      have hargs := h.inners hwftype.2 (by
        have := length_commas_le_typeArgs (printTypes args)
        simp [TypeExpr.print, TypeKind.print] at hlen
        omega)
      refine reads_expr (reads_kind .identifier ?_ (reads_structValue hwftype.1 hargs hfields)) hends
      show headKind (((printPath path ++ printTypeArgs (printTypes args)) ++ curly _) ++ rest) = _
      rw [List.append_assoc]
      exact headKind_path hwftype.1 _ _
  | arrayInit element values heap =>
    simp only [Expr.print, ExprKind.print, List.length_append, length_curly, length_paren, length_bracket] at hlen
    have helement := h.inner element hwf.1 (by rw [length_paren]; omega)
    have hvalues := h.operands hwf.2 (by omega)
    cases heap with
    | true =>
      exact reads_expr (reads_kind .kwNew rfl (reads_allocation fun start =>
        reads_allocatedArray start (reads_arrayInit helement hvalues) rfl)) hends
    | false => exact reads_expr (reads_kind .openBracket rfl (reads_arrayInit helement hvalues)) hends
  | arrayFill element size value heap =>
    simp only [Expr.print, ExprKind.print, List.length_append, length_curly, length_paren, length_bracket] at hlen
    have helement := h.inner element hwf.1 (by rw [length_paren]; omega)
    have hsize := h.operand size hwf.2.1 (by rw [length_paren]; omega)
    have hvalue := h.operand value hwf.2.2 (by rw [length_paren]; omega)
    cases heap with
    | true =>
      exact reads_expr (reads_kind .kwNew rfl (reads_allocation fun start =>
        reads_allocatedArray start (reads_arrayFill helement hsize hvalue) rfl)) hends
    | false => exact reads_expr (reads_kind .openBracket rfl (reads_arrayFill helement hsize hvalue)) hends

/-- One more step of the grammar reads back terms with one more token. -/
theorem step (h : ReadsTerms sub n) : ReadsTerms (Grammar.step sub) (n + 1) where
  expr _ hwf hlen := h.readsExpr hwf hlen
  operand _ hwf hlen := h.readsOperand hwf hlen
  type _ hwf hlen := h.readsType hwf hlen
  inner _ hwf hlen := h.readsInner hwf hlen

end ReadsTerms

end OwnLang.Grammar
