import OwnLang.Source.Decimal
import OwnLang.Grammar.Type

/-!
# Reading expressions

`expr sub p` reads an operand and the operators behind it that bind tighter than `p`. A binary
operator's right operand is read at the operator's own power, so that operators of one power group
to the left; operators in front of an operand read it at the power `unary`.

After a name, `<` may open template arguments or compare. They are read as arguments only if they
parse up to the `>` and are followed by a token that cannot start an operand.
-/

namespace OwnLang.Grammar

open Surface Parse

/-- The binary operator of a token. -/
def binaryOp? : TokenKind → Option BinaryOp
  | .plus => some .add
  | .dash => some .sub
  | .star => some .mul
  | .slash => some .div
  | .percent => some .rem
  | .equals => some .eq
  | .notEquals => some .ne
  | .less => some .lt
  | .lessEquals => some .le
  | .greater => some .gt
  | .greaterEquals => some .ge
  | .and => some .and
  | .or => some .or
  | _ => none

/-- The power of a binary operator. -/
def operatorPower : BinaryOp → Power
  | .and | .or => .logical
  | .eq | .ne | .lt | .le | .gt | .ge => .relational
  | .add | .sub => .additive
  | .mul | .div | .rem => .multiplicative

/-- The token behind a name's template arguments. -/
def followsTemplateArguments : TokenKind → Bool
  | .openParen | .openCurly | .closeParen | .closeBracket | .semicolon | .comma | .dot => true
  | _ => false

/-- The template arguments behind a name, or none where `<` compares. -/
def templateArguments (sub : Readers) : Parse (List TypeExpr) := do
  if (← kind) = .less then
    return (← speculate (typeArguments sub) (followsTemplateArguments ·.kind)).getD []
  else return []

/-- The arguments of a call, with their parentheses. -/
def arguments (sub : Readers) : Parse (List Expr) := do
  let _ ← expect .openParen
  commaList .closeParen sub.wholeExpr

/-- Whether a curly bracket at the cursor opens the fields of a struct. -/
def opensFields (c : Cursor) : Bool :=
  c.kind = .openCurly
    && (c.peek 1 = .closeCurly || (c.peek 1 = .identifier && c.peek 2 = .colon))

/-- The fields of a struct value, with their brackets. -/
def structFields (sub : Readers) (type : TypeExpr) (heap : Bool) : Parse Expr := do
  let _ ← expect .openCurly
  let fields ← commaList .closeCurly do
    let name ← ident
    let _ ← expect .colon
    return (name, ← sub.wholeExpr)
  return .mk (.structInit type fields heap) (← spanFrom type.span)

/-- A number; one that does not fit 64 bits is refused. -/
def number : Parse Expr := do
  let token ← advance
  let value := decimalValue token.value.toList
  if value < wordBound then return .mk (.number value) token.span
  else Run.reject (.numberParse token.value) token.span

/-- A node without operands, made from the current token. -/
def leaf (node : Token → ExprKind) : Parse Expr := do
  let token ← advance
  return .mk (node token) token.span

/-- An expression that starts with a name: a path, the use of a macro or a struct value. -/
def named (sub : Readers) : Parse Expr := do
  let names ← path
  let args ← templateArguments sub
  let start := pathStart names
  if (← kind) = .not ∧ (← peek 1) = .openParen ∧ args.isEmpty then
    let _ ← advance
    let args ← arguments sub
    return .mk (.macroCall names args) (← spanFrom start)
  else if opensFields (← get) then
    structFields sub (.mk (.named names args) (Ident.pathSpan names)) false
  else
    return .mk (.path names args) (← spanFrom start)

/-- An operator in front of its operand. -/
def prefixed (sub : Readers) (node : Expr → ExprKind) : Parse Expr := do
  let sigil ← advance
  let operand ← sub (.expr .unary)
  return .mk (node operand) (sigil.span.upTo operand.span)

/-- `&x`, or `&const x`. -/
def reference (sub : Readers) : Parse Expr := do
  let sigil ← advance
  let constant ← eat .kwConst
  let target ← sub (.expr .unary)
  return .mk (.ref target constant) (sigil.span.upTo target.span)

/-- An expression in parentheses, which takes their place. -/
def parenthesised (sub : Readers) : Parse Expr := do
  let start ← advance
  let inner ← sub.wholeExpr
  let _ ← expect .closeParen
  return inner.withSpan (← spanFrom start.span)

/-- An array value: `[]T{a, b}`, or `[n]T{v}`. -/
def array (sub : Readers) (heap : Bool) : Parse Expr := do
  let start ← expect .openBracket
  let size ← if (← kind) = .closeBracket then pure none else some <$> sub.wholeExpr
  let _ ← expect .closeBracket
  let element ← sub.wholeType
  let _ ← expect .openCurly
  match size with
  | some size => do
    let value ← sub.wholeExpr
    let _ ← expect .closeCurly
    return .mk (.arrayFill element size value heap) (← spanFrom start.span)
  | none => do
    let values ← commaList .closeCurly sub.wholeExpr
    return .mk (.arrayInit element values heap) (← spanFrom start.span)

/-- What `new` allocates, behind that word. -/
def allocated (sub : Readers) (start : Span) : Parse Expr := do
  if (← kind) = .openBracket then
    array sub true
  else
    let type ← sub.wholeType
    if (← kind) = .openCurly then
      structFields sub type true
    else
      let _ ← expect .openParen
      let value ← sub.wholeExpr
      let _ ← expect .closeParen
      return .mk (.new type value) (← spanFrom start)

/-- `new T(v)`, `new T{a: v}`, `new []T{a, b}` and `new [n]T{v}`. -/
def allocation (sub : Readers) : Parse Expr := do
  let start ← advance
  let inner ← allocated sub start.span
  return inner.withSpan (← spanFrom start.span)

/-- The part of an expression that no operator behind it belongs to. -/
def operand (sub : Readers) : Parse Expr := do
  match ← kind with
  | .number => number
  | .string => leaf fun token => .str token.value
  | .kwTrue => leaf fun _ => .bool true
  | .kwFalse => leaf fun _ => .bool false
  | .identifier => named sub
  | .dash => prefixed sub (.unary .neg)
  | .not => prefixed sub (.unary .not)
  | .ampersand => reference sub
  | .star => prefixed sub .deref
  | .hash => prefixed sub .share
  | .openParen => parenthesised sub
  | .openBracket => array sub false
  | .kwNew => allocation sub
  | _ => unexpected "expected expression"

/-- A binary operator and its right operand. -/
def binary (sub : Readers) (op : BinaryOp) (left : Expr) : Parse Expr := do
  let _ ← advance
  let right ← sub (.expr (operatorPower op))
  return .mk (.binary op left right) (left.span.upTo right.span)

/-- The arguments behind a callee. -/
def call (sub : Readers) (callee : Expr) : Parse Expr := do
  let args ← arguments sub
  return .mk (.call callee args) (← spanFrom callee.span)

/-- An index behind an array. -/
def index (sub : Readers) (base : Expr) : Parse Expr := do
  let _ ← expect .openBracket
  let position ← sub.wholeExpr
  let _ ← expect .closeBracket
  return .mk (.index base position) (← spanFrom base.span)

/-- A member behind a value. -/
def member (base : Expr) : Parse Expr := do
  let _ ← expect .dot
  let name ← ident
  return .mk (.member base name) (base.span.upTo name.span)

/-- The operator at the cursor, with its power and how it goes on from its left operand. -/
def operator? (sub : Readers) (kind : TokenKind) : Option (Power × (Expr → Parse Expr)) :=
  match kind with
  | .openParen => some (.call, call sub)
  | .openBracket => some (.call, index sub)
  | .dot => some (.member, member)
  | kind => (binaryOp? kind).map fun op => (operatorPower op, binary sub op)

/-- An operand and all operators behind it that bind tighter than `power`. -/
def expr (sub : Readers) (power : Power) : Parse Expr := do
  let first ← operand sub
  iterate (fun left => do
    match operator? sub (← kind) with
    | some (own, extend) => if own.tighter power then some <$> extend left else return none
    | none => return none) first

end OwnLang.Grammar
