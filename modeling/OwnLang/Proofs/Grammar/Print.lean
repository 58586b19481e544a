import OwnLang.Surface.Item
import OwnLang.Token.Basic

/-!
# Printing syntax as tokens

`Surface.Module.print` writes a file as tokens without places. Operands, arguments, conditions and
the types inside of other types stand in parentheses, so that no token is there for how tightly an
operator binds.
-/

namespace OwnLang

/-- A token without its place: its kind and its text. -/
abbrev BareToken : Type := TokenKind × String

namespace Token

/-- A token without its place. -/
def bare (t : Token) : BareToken := (t.kind, t.value)

end Token

namespace TokenKind

/-- The text of a token that stands for itself. -/
def spelling (kind : TokenKind) : String :=
  (((keywords ++ punctuation).find? (·.2 = kind)).map (·.1)).getD ""

/-- A token that stands for itself. -/
def sign (kind : TokenKind) : BareToken := (kind, kind.spelling)

/-- The token of a binary operator. -/
def ofBinary : Surface.BinaryOp → TokenKind
  | .add => plus
  | .sub => dash
  | .mul => star
  | .div => slash
  | .rem => percent
  | .eq => equals
  | .ne => notEquals
  | .lt => less
  | .le => lessEquals
  | .gt => greater
  | .ge => greaterEquals
  | .and => and
  | .or => or

/-- The token of an operator in front of its operand. -/
def ofUnary : Surface.UnaryOp → TokenKind
  | .neg => dash
  | .not => not

/-- The token of an assignment. -/
def ofAssignment : Option Surface.ArithmeticOp → TokenKind
  | none => assignment
  | some ⟨.add, _⟩ => plusEquals
  | some ⟨.sub, _⟩ => minusEquals
  | some ⟨.mul, _⟩ => starEquals
  | some ⟨.div, _⟩ => slashEquals
  | some ⟨.rem, _⟩ => percentEquals

end TokenKind

namespace Surface

open TokenKind (sign)

/-! ## Pieces -/

/-- Texts with commas between them. -/
def commas : List (List BareToken) → List BareToken
  | [] => []
  | [piece] => piece
  | piece :: next :: rest => piece ++ sign .comma :: commas (next :: rest)

/-- A text in parentheses. -/
def paren (text : List BareToken) : List BareToken := sign .openParen :: (text ++ [sign .closeParen])

/-- A text in curly brackets. -/
def curly (text : List BareToken) : List BareToken := sign .openCurly :: (text ++ [sign .closeCurly])

/-- A text in square brackets. -/
def bracket (text : List BareToken) : List BareToken :=
  sign .openBracket :: (text ++ [sign .closeBracket])

/-- A token that is written or not. -/
def signIf (written : Bool) (kind : TokenKind) : List BareToken := if written then [sign kind] else []

/-- Parameters in their parentheses, with `...` behind them if others may follow. -/
def printParams (params : List (List BareToken)) (variadic : Bool) : List BareToken :=
  paren (commas (params ++ if variadic then [[sign .ellipsis]] else []))

/-- A name. -/
def Ident.print (name : Ident) : BareToken := (.identifier, name.name)

/-- The names of a path behind its first one. -/
def printPathRest : List Ident → List BareToken
  | [] => []
  | name :: rest => sign .colonColon :: name.print :: printPathRest rest

/-- A path. -/
def printPath : List Ident → List BareToken
  | [] => []
  | name :: rest => name.print :: printPathRest rest

/-- Template arguments, where there are any. -/
def printTypeArgs : List (List BareToken) → List BareToken
  | [] => []
  | args => sign .less :: (commas args ++ [sign .greater])

/-! ## Expressions and types -/

mutual

/-- An expression as tokens. -/
def Expr.print : Expr → List BareToken
  | .mk kind _ => kind.print

/-- A form of an expression as tokens. -/
def ExprKind.print : ExprKind → List BareToken
  | .number value => [(.number, toString value)]
  | .bool value => [sign (if value then .kwTrue else .kwFalse)]
  | .str text => [(.string, text)]
  | .path path args => printPath path ++ printTypeArgs (printTypes args)
  | .call callee args => paren callee.print ++ paren (commas (printExprs args))
  | .macroCall path args => printPath path ++ sign .not :: paren (commas (printExprs args))
  | .binary op left right => paren left.print ++ sign (.ofBinary op) :: paren right.print
  | .unary op operand => sign (.ofUnary op) :: paren operand.print
  | .ref target constant => sign .ampersand :: (signIf constant .kwConst ++ paren target.print)
  | .deref pointer => sign .star :: paren pointer.print
  | .share owner => sign .hash :: paren owner.print
  | .index base index => paren base.print ++ bracket (paren index.print)
  | .member base name => paren base.print ++ [sign .dot, name.print]
  | .new type value => sign .kwNew :: (paren type.print ++ paren value.print)
  | .structInit type fields heap =>
    signIf heap .kwNew ++ ((if heap then paren type.print else type.print)
      ++ curly (commas (printFields fields)))
  | .arrayInit element values heap =>
    signIf heap .kwNew ++ (bracket [] ++ (paren element.print ++ curly (commas (printExprs values))))
  | .arrayFill element size value heap =>
    signIf heap .kwNew
      ++ (bracket (paren size.print) ++ (paren element.print ++ curly (paren value.print)))

/-- Expressions as tokens, each in parentheses. -/
def printExprs : List Expr → List (List BareToken)
  | [] => []
  | e :: rest => paren e.print :: printExprs rest

/-- The fields of a struct value as tokens. -/
def printFields : List (Ident × Expr) → List (List BareToken)
  | [] => []
  | (name, value) :: rest => (name.print :: sign .colon :: paren value.print) :: printFields rest

/-- A type as tokens. -/
def TypeExpr.print : TypeExpr → List BareToken
  | .mk kind _ => kind.print

/-- A form of a type as tokens. -/
def TypeKind.print : TypeKind → List BareToken
  | .named path args => printPath path ++ printTypeArgs (printTypes args)
  | .owner target constant => signIf constant .kwConst ++ sign .ampersand :: paren target.print
  | .shared target constant => signIf constant .kwConst ++ sign .star :: paren target.print
  | .array element constant size =>
    signIf constant .kwConst ++ (paren element.print ++ bracket (printSize size))
  | .func params variadic returns =>
    printParams (printTypes params) variadic ++ sign .colon :: paren returns.print

/-- Types as tokens, each in parentheses. -/
def printTypes : List TypeExpr → List (List BareToken)
  | [] => []
  | t :: rest => paren t.print :: printTypes rest

/-- The size of an array type as tokens. -/
def printSize : Option Expr → List BareToken
  | none => []
  | some size => paren size.print

end

theorem printExprs_eq_map (l : List Expr) : printExprs l = l.map fun e => paren e.print := by
  induction l with
  | nil => rfl
  | cons e l ih => rw [printExprs, ih, List.map_cons]

theorem printTypes_eq_map (l : List TypeExpr) : printTypes l = l.map fun t => paren t.print := by
  induction l with
  | nil => rfl
  | cons t l ih => rw [printTypes, ih, List.map_cons]

theorem printFields_eq_map (l : List (Ident × Expr)) :
    printFields l = l.map fun field => field.1.print :: sign .colon :: paren field.2.print := by
  induction l with
  | nil => rfl
  | cons field l ih => rw [printFields, ih, List.map_cons]

/-! ## Statements -/

/-- A type behind a colon, where there is one. -/
def printWrittenType : Option TypeExpr → List BareToken
  | none => []
  | some t => sign .colon :: t.print

/-- A value behind an equals sign, where there is one. -/
def printInitializer : Option Expr → List BareToken
  | none => []
  | some value => sign .assignment :: value.print

/-- A declaration without its semicolon. -/
def VarDecl.print (decl : VarDecl) : List BareToken :=
  sign (if decl.constant then .kwConst else .kwVar) :: decl.name.print ::
    (printWrittenType decl.type ++ printInitializer decl.value)

/-- A value that may be missing. -/
def printValue : Option Expr → List BareToken
  | none => []
  | some value => value.print

/-- A condition that may be missing, in parentheses. -/
def printCondition : Option Expr → List BareToken
  | none => []
  | some condition => paren condition.print

/-- A label, where there is one. -/
def printLabel : Option Ident → List BareToken
  | none => []
  | some label => [sign .atSign, label.print]

/-- A form of a simple statement, without its semicolon. -/
def StmtKind.printSimple : StmtKind → List BareToken
  | .decl d => d.print
  | .assign target op value => paren target.print ++ sign (.ofAssignment op) :: paren value.print
  | .expr value => value.print
  | _ => []

/-- A statement in the header of a `for` loop, where there is one. -/
def printHeader : Option Stmt → List BareToken
  | none => []
  | some stmt => stmt.kind.printSimple

mutual

/-- A statement as tokens. -/
def Stmt.print : Stmt → List BareToken
  | .mk kind _ => kind.print

/-- A form of a statement as tokens. -/
def StmtKind.print : StmtKind → List BareToken
  | .decl d => d.print ++ [sign .semicolon]
  | .assign target op value =>
    paren target.print ++ sign (.ofAssignment op) :: (paren value.print ++ [sign .semicolon])
  | .expr value => value.print ++ [sign .semicolon]
  | .ret value => sign .kwReturn :: (printValue value ++ [sign .semicolon])
  | .brk label => sign .kwBreak :: (printLabel label ++ [sign .semicolon])
  | .cont label => sign .kwContinue :: (printLabel label ++ [sign .semicolon])
  | .cond branches otherwise => printBranches branches ++ printOtherwise otherwise
  | .loop label condition body =>
    sign .kwWhile :: (printLabel label ++ (paren condition.print ++ body.print))
  | .forLoop label init condition step body =>
    sign .kwFor :: (printLabel label ++ (paren (printHeader init ++ sign .semicolon ::
      (printCondition condition ++ sign .semicolon :: printHeader step)) ++ body.print))
  | .scope block => block.print

/-- Branches, each behind the `else` of the one before. -/
def printBranches : List (Expr × Block) → List BareToken
  | [] => []
  | [(condition, body)] => sign .kwIf :: (paren condition.print ++ body.print)
  | (condition, body) :: next :: rest =>
    sign .kwIf :: (paren condition.print ++ (body.print ++ sign .kwElse :: printBranches (next :: rest)))

/-- A final branch, where there is one. -/
def printOtherwise : Option Block → List BareToken
  | none => []
  | some block => sign .kwElse :: block.print

/-- A block as tokens. -/
def Block.print : Block → List BareToken
  | .mk stmts _ => curly (printStmts stmts)

/-- Statements as tokens. -/
def printStmts : List Stmt → List BareToken
  | [] => []
  | stmt :: rest => stmt.print ++ printStmts rest

end

theorem printStmts_eq_flatMap (l : List Stmt) : printStmts l = l.flatMap Stmt.print := by
  induction l with
  | nil => rfl
  | cons stmt l ih => rw [printStmts, ih, List.flatMap_cons]

/-! ## Declarations -/

/-- A parameter as tokens. -/
def Param.print (p : Param) : List BareToken := p.name.print :: sign .colon :: p.type.print

/-- A body, or the semicolon in its place. -/
def printBody : Option Block → List BareToken
  | none => [sign .semicolon]
  | some body => body.print

/-- A function as tokens, from its `fn` on. -/
def FnDecl.print (decl : FnDecl) : List BareToken :=
  sign .kwFn :: decl.name.print :: (printParams (decl.params.map Param.print) decl.variadic
    ++ (printWrittenType decl.returns ++ printBody decl.body))

/-- A function of a struct as tokens. -/
def FnDecl.printMember (decl : FnDecl) : List BareToken :=
  match decl.kind with
  | .constMethod => sign .kwConst :: decl.print
  | .static => sign .kwStatic :: decl.print
  | .plain | .method => decl.print

/-- A struct as tokens, its fields in front of its functions. -/
def StructDecl.print (decl : StructDecl) : List BareToken :=
  sign .kwStruct :: decl.name.print ::
    curly (decl.fields.flatMap (fun f => f.print ++ [sign .semicolon])
      ++ decl.methods.flatMap FnDecl.printMember)

/-- A macro's parameter as tokens. -/
def MacroParam.print (p : MacroParam) : List BareToken := signIf p.constant .hash ++ p.type.print

/-- A macro as tokens. -/
def MacroDecl.print (decl : MacroDecl) : List BareToken :=
  sign .kwMacro :: decl.name.print :: (printParams (decl.params.map MacroParam.print) decl.variadic
    ++ (printWrittenType decl.returns ++ [sign .semicolon]))

/-- A form of a declaration as tokens. -/
def ItemKind.print : ItemKind → List BareToken
  | .function decl => decl.print
  | .struct decl => decl.print
  | .global decl => decl.print ++ [sign .semicolon]
  | .typeAlias name target =>
    sign .kwTypealias :: name.print :: sign .assignment :: (target.print ++ [sign .semicolon])
  | .macroDecl decl => decl.print

/-- Type parameters, where there are any. -/
def printTemplate : List Ident → List BareToken
  | [] => []
  | params => sign .kwTemplate :: sign .less :: (commas (params.map fun p => [p.print]) ++ [sign .greater])

/-- A declaration as tokens. -/
def Item.print (item : Item) : List BareToken := printTemplate item.template ++ item.kind.print

/-- A file as tokens, without the `eof` behind it. -/
def Module.print (file : Module) : List BareToken :=
  sign .kwPackage :: file.package.print :: sign .semicolon ::
    (file.imports.flatMap (fun name => [sign .kwImport, name.print, sign .semicolon])
      ++ file.items.flatMap Item.print)

end Surface

end OwnLang
