import OwnLang.Grammar.Expr

/-!
# Reading statements
-/

namespace OwnLang.Grammar

open Surface Parse

/-- The operator of an assignment token: none for `=`, that of the operation for `+=` and such. -/
def assignmentOp? : TokenKind → Option (Option ArithmeticOp)
  | .assignment => some none
  | .plusEquals => some (some ⟨.add, rfl⟩)
  | .minusEquals => some (some ⟨.sub, rfl⟩)
  | .starEquals => some (some ⟨.mul, rfl⟩)
  | .slashEquals => some (some ⟨.div, rfl⟩)
  | .percentEquals => some (some ⟨.rem, rfl⟩)
  | _ => none

/-- `: T`, where it is written. -/
def typeAnnotation (sub : Readers) : Parse (Option TypeExpr) := do
  if ← eat .colon then some <$> sub.wholeType else return none

/-- `= v`, where it is written. -/
def initializer (sub : Readers) : Parse (Option Expr) := do
  if ← eat .assignment then some <$> sub.wholeExpr else return none

/-- A name where a declaration needs one. -/
def declaredName : Parse Ident := do
  let token ← current
  if token.kind = .identifier then ident
  else unexpected "expected identifier during variable declaration"

/-- A `var` or `const` declaration without its semicolon. -/
def varDecl (sub : Readers) : Parse VarDecl := do
  let constant := (← advance).kind = .kwConst
  let name ← declaredName
  let type ← typeAnnotation sub
  let value ← initializer sub
  if value.isNone && constant then
    unexpected "expected value in constant definition"
  else if value.isNone && type.isNone then
    unexpected "expected value or explicit type"
  else
    return ⟨name, constant, type, value⟩

/-- A declaration, an assignment or an expression, without a semicolon. -/
def simpleStmt (sub : Readers) : Parse Stmt := do
  let start ← current
  if start.kind = .kwVar ∨ start.kind = .kwConst then
    let decl ← varDecl sub
    return .mk (.decl decl) (← spanFrom start.span)
  let target ← sub.wholeExpr
  match assignmentOp? (← kind) with
  | some op => do
    let _ ← advance
    let value ← sub.wholeExpr
    return .mk (.assign target op value) (target.span.upTo value.span)
  | none => return .mk (.expr target) target.span

/-- A simple statement and its semicolon. -/
def terminatedStmt (sub : Readers) : Parse Stmt := do
  let stmt ← simpleStmt sub
  let _ ← expect .semicolon
  return stmt

/-- The statements between two curly brackets. -/
def block (sub : Readers) : Parse Block := do
  let start ← expect .openCurly
  let stmts ← collect do
    match ← kind with
    | .closeCurly => return none
    | .eof => unexpected "expected `\x7d`"
    | _ => some <$> sub .stmt
  let _ ← expect .closeCurly
  return .mk stmts (← spanFrom start.span)

/-- A condition in its parentheses. -/
def condition (sub : Readers) : Parse Expr := do
  let _ ← expect .openParen
  let test ← sub.wholeExpr
  let _ ← expect .closeParen
  return test

/-- A condition and the block under it. -/
def branch (sub : Readers) : Parse (Expr × Block) := do
  let test ← condition sub
  return (test, ← sub.wholeBlock)

/-- The branches behind the first one, the last in front, and the final `else` if there is one. -/
def moreBranches (sub : Readers) (first : Expr × Block) :
    Parse (List (Expr × Block) × Option Block) := do
  let (reversed, otherwise) ← iterate step ([first], none)
  return (reversed.reverse, otherwise)
where
  step : List (Expr × Block) × Option Block →
      Parse (Option (List (Expr × Block) × Option Block))
    | (_, some _) => return none
    | (branches, none) => do
      if ← eat .kwElse then
        if ← eat .kwIf then return some ((← branch sub) :: branches, none)
        else return some (branches, some (← sub.wholeBlock))
      else return none

/-- An `if` with all its branches. -/
def ifStmt (sub : Readers) : Parse Stmt := do
  let start ← advance
  let first ← branch sub
  let (branches, otherwise) ← moreBranches sub first
  return .mk (.cond branches otherwise) (← spanFrom start.span)

/-- `@name`, where it is written. -/
def label : Parse (Option Ident) := do
  if ← eat .atSign then some <$> ident else return none

/-- A `while` loop. -/
def whileStmt (sub : Readers) : Parse Stmt := do
  let start ← advance
  let name ← label
  let test ← condition sub
  let body ← sub.wholeBlock
  return .mk (.loop name test body) (← spanFrom start.span)

/-- What `part` reads, unless the next token is `close`. -/
def optionalBefore {α : Type} (close : TokenKind) (part : Parse α) : Parse (Option α) := do
  if (← kind) = close then return none else some <$> part

/-- A `for` loop. -/
def forStmt (sub : Readers) : Parse Stmt := do
  let start ← advance
  let name ← label
  let _ ← expect .openParen
  let init ← optionalBefore .semicolon (simpleStmt sub)
  let _ ← expect .semicolon
  let test ← optionalBefore .semicolon sub.wholeExpr
  let _ ← expect .semicolon
  let step ← optionalBefore .closeParen (simpleStmt sub)
  let _ ← expect .closeParen
  let body ← sub.wholeBlock
  return .mk (.forLoop name init test step body) (← spanFrom start.span)

/-- A `return` with its value. -/
def returnStmt (sub : Readers) : Parse Stmt := do
  let start ← advance
  let value ← optionalBefore .semicolon sub.wholeExpr
  let _ ← expect .semicolon
  return .mk (.ret value) (← spanFrom start.span)

/-- A `break` or `continue` with its label. -/
def jumpStmt (node : Option Ident → StmtKind) : Parse Stmt := do
  let start ← advance
  let name ← label
  let _ ← expect .semicolon
  return .mk (node name) (← spanFrom start.span)

/-- A block that stands as a statement. -/
def scopeStmt (sub : Readers) : Parse Stmt := do
  let inner ← sub.wholeBlock
  return .mk (.scope inner) inner.span

/-- A statement. -/
def stmt (sub : Readers) : Parse Stmt := do
  match ← kind with
  | .kwIf => ifStmt sub
  | .kwWhile => whileStmt sub
  | .kwFor => forStmt sub
  | .openCurly => scopeStmt sub
  | .kwReturn => returnStmt sub
  | .kwBreak => jumpStmt .brk
  | .kwContinue => jumpStmt .cont
  | _ => terminatedStmt sub

end OwnLang.Grammar
