import Mathlib
import OwnLang.Grammar.Basic
import OwnLang.Proofs.Grammar.Print

/-!
# Which tokens belong to a node

A file is a tree of nodes (`Surface.Node`): expressions, types, statements, blocks, functions and
declarations. `Production` lists the forms a node can be written in, as tokens and nodes inside of it, and
`Spells` says that tokens are written in such a form, where every node has the span of its own tokens.

Three of the forms are not those of a tree: parentheses around an expression or a type are part of its
tokens, and so is `const` in front of an array. The span of a node is that of all its tokens, but for the
type of a struct value, which has the span of its path, while its arguments stand behind that.
-/

namespace OwnLang

/-! ## Nodes -/

namespace Surface

/-- A node of a file. -/
inductive Node where
  | expr (e : Expr)
  | type (t : TypeExpr)
  | stmt (s : Stmt)
  | block (b : Block)
  | function (decl : FnDecl)
  | item (i : Item)

namespace Node

/-- The place of a node. -/
def span : Node → Span
  | expr e => e.span
  | type t => t.span
  | stmt s => s.span
  | block b => b.span
  | function decl => decl.span
  | item i => i.span

/-- Whether a node is a type. -/
def isType : Node → Bool
  | type _ => true
  | _ => false

end Node

/-- The nodes right inside an expression. -/
def ExprKind.children : ExprKind → List Node
  | .number _ | .bool _ | .str _ => []
  | .path _ args => args.map .type
  | .call callee args => .expr callee :: args.map .expr
  | .macroCall _ args => args.map .expr
  | .binary _ left right => [.expr left, .expr right]
  | .unary _ operand => [.expr operand]
  | .ref target _ => [.expr target]
  | .deref pointer => [.expr pointer]
  | .share owner => [.expr owner]
  | .index base position => [.expr base, .expr position]
  | .member base _ => [.expr base]
  | .new type value => [.type type, .expr value]
  | .structInit type fields _ => .type type :: fields.map fun field => .expr field.2
  | .arrayInit element values _ => .type element :: values.map .expr
  | .arrayFill element size value _ => [.expr size, .type element, .expr value]

/-- The nodes right inside a type. -/
def TypeKind.children : TypeKind → List Node
  | .named _ args => args.map .type
  | .owner target _ | .shared target _ => [.type target]
  | .array element _ size => .type element :: size.toList.map .expr
  | .func params _ returns => params.map .type ++ [.type returns]

/-- The type and the value of a declaration. -/
def VarDecl.children (decl : VarDecl) : List Node :=
  decl.type.toList.map .type ++ decl.value.toList.map .expr

/-- The nodes right inside a statement. -/
def StmtKind.children : StmtKind → List Node
  | .decl d => d.children
  | .assign target _ value => [.expr target, .expr value]
  | .expr value => [.expr value]
  | .ret value => value.toList.map .expr
  | .brk _ | .cont _ => []
  | .cond branches otherwise =>
    branches.flatMap (fun branch => [.expr branch.1, .block branch.2]) ++ otherwise.toList.map .block
  | .loop _ condition body => [.expr condition, .block body]
  | .forLoop _ init condition step body =>
    init.toList.map .stmt ++ condition.toList.map .expr ++ step.toList.map .stmt ++ [.block body]
  | .scope block => [.block block]

/-- The nodes right inside a function. -/
def FnDecl.children (decl : FnDecl) : List Node :=
  decl.params.map (fun p => .type p.type) ++ decl.returns.toList.map .type ++ decl.body.toList.map .block

/-- The nodes right inside a declaration. -/
def ItemKind.children : ItemKind → List Node
  | .function decl => [.function decl]
  | .struct decl => decl.fields.flatMap VarDecl.children ++ decl.methods.map .function
  | .global decl => decl.children
  | .typeAlias _ target => [.type target]
  | .macroDecl decl => decl.params.map (fun p => .type p.type) ++ decl.returns.toList.map .type

namespace Node

/-- The nodes right inside a node. -/
def children : Node → List Node
  | expr e => e.kind.children
  | type t => t.kind.children
  | stmt s => s.kind.children
  | block b => b.stmts.map .stmt
  | function decl => decl.children
  | item i => i.kind.children

/-- A node stands in another one, with nothing but types around it in there. -/
inductive Encloses (n : Node) : Node → Prop where
  | child {m : Node} (h : m ∈ n.children) : Encloses n m
  | through {t : TypeExpr} {m : Node} (ht : Encloses n (.type t)) (h : m ∈ (Node.type t).children) : Encloses n m

end Node

/-- The nodes of a file. -/
inductive Module.Part (file : Module) : Node → Prop where
  | item {i : Item} (h : i ∈ file.items) : Module.Part file (.item i)
  | child {n m : Node} (hn : Module.Part file n) (h : m ∈ n.children) : Module.Part file m

/-- Every node but the declarations stands in another one that is not a type. -/
theorem Module.Part.enclosed {file : Module} {m : Node} (h : file.Part m) :
    (∃ i ∈ file.items, m = .item i) ∨ ∃ n, file.Part n ∧ n.isType = false ∧ n.Encloses m := by
  induction h with
  | item hi => exact .inl ⟨_, hi, rfl⟩
  | @child n m hn hm ih =>
    cases hkind : n.isType with
    | false => exact .inr ⟨n, hn, hkind, .child hm⟩
    | true =>
      cases n <;> cases hkind
      obtain ⟨i, -, hitem⟩ | ⟨around, haround, hplain, hin⟩ := ih
      · cases hitem
      · exact .inr ⟨around, haround, hplain, .through hin hm⟩

end Surface

/-! ## Forms -/

namespace Spelling

open Surface

/-- A part of a form: a token of some kind, or a node. -/
inductive Piece where
  | token (p : Token → Prop)
  | node (n : Node)

/-- A token of a certain kind. -/
def sign (kind : TokenKind) : Piece := .token fun t => t.kind = kind

/-- The token of a name. -/
def name (x : Ident) : Piece := .token fun t => t.kind = .identifier ∧ t.value = x.name ∧ t.span = x.span

/-- An expression. -/
abbrev expr (e : Expr) : Piece := .node (.expr e)

/-- A type. -/
abbrev type (t : TypeExpr) : Piece := .node (.type t)

/-- A block. -/
abbrev block (b : Block) : Piece := .node (.block b)

/-- Items with a comma behind each. -/
def ended (items : List (List Piece)) : List Piece := items.flatMap (· ++ [sign .comma])

/-- One or more items with a comma behind each but the last. -/
def Separated (items : List (List Piece)) (form : List Piece) : Prop :=
  ∃ init last, items = init ++ [last] ∧ form = ended init ++ last

/-- Items with commas between them, and perhaps another one behind the last. -/
def Listed (items : List (List Piece)) (form : List Piece) : Prop := form = ended items ∨ Separated items form

/-- Parameters, with `...` behind them if others may follow. -/
def Parameters (params : List (List Piece)) (variadic : Bool) (form : List Piece) : Prop :=
  (variadic = false ∧ Listed params form) ∨
    (variadic = true ∧ form = ended params ++ [sign .ellipsis])

/-- The names of a path. -/
def path : List Ident → List Piece
  | [] => []
  | first :: rest => name first :: rest.flatMap fun x => [sign .colonColon, name x]

/-- Template arguments with their brackets, where there are any. -/
def TypeArgs (args : List TypeExpr) (form : List Piece) : Prop :=
  (args = [] ∧ form = []) ∨
    ∃ inner, Separated (args.map fun t => [type t]) inner ∧ form = sign .less :: (inner ++ [sign .greater])

theorem typeArgs_nil {form : List Piece} (h : TypeArgs [] form) : form = [] := by
  rcases h with ⟨-, rfl⟩ | ⟨_, ⟨init, last, hnil, -⟩, -⟩
  · rfl
  · simp at hnil

/-- The fields of a struct value with their brackets. -/
def Fields (fields : List (Ident × Expr)) (form : List Piece) : Prop :=
  ∃ inner, Listed (fields.map fun field => [name field.1, sign .colon, expr field.2]) inner ∧
    form = sign .openCurly :: (inner ++ [sign .closeCurly])

/-- Arguments in their parentheses. -/
def Arguments (args : List Expr) (form : List Piece) : Prop :=
  ∃ inner, Listed (args.map fun e => [expr e]) inner ∧ form = sign .openParen :: (inner ++ [sign .closeParen])

/-- What can be put on the heap, without the `new` in front of it; an array can be on the stack too. -/
inductive Allocated : Bool → ExprKind → List Piece → Prop where
  | arrayInit {heap element values inner} (h : Listed (values.map fun e => [expr e]) inner) :
      Allocated heap (.arrayInit element values heap)
        ([sign .openBracket, sign .closeBracket, type element, sign .openCurly] ++ inner ++ [sign .closeCurly])
  | arrayFill {heap element size value} :
      Allocated heap (.arrayFill element size value heap)
        [sign .openBracket, expr size, sign .closeBracket, type element, sign .openCurly, expr value,
          sign .closeCurly]
  | struct {t fields form} (h : Fields fields form) :
      Allocated true (.structInit t fields true) (type t :: form)
  | value {t value} :
      Allocated true (.new t value) [type t, sign .openParen, expr value, sign .closeParen]

/-- A pointer type without the `const` that may be in front of it. -/
inductive Pointer (constant : Bool) : TypeKind → List Piece → Prop where
  | owner {target} : Pointer constant (.owner target constant) [sign .ampersand, type target]
  | shared {target} : Pointer constant (.shared target constant) [sign .star, type target]

/-- `: T`, where it is written. -/
def ascription : Option TypeExpr → List Piece
  | none => []
  | some t => [sign .colon, type t]

/-- `= v`, where it is written. -/
def initializer : Option Expr → List Piece
  | none => []
  | some e => [sign .assignment, expr e]

/-- A declaration without its semicolon. -/
def varDecl (decl : VarDecl) : List Piece :=
  sign (if decl.constant then .kwConst else .kwVar) :: name decl.name ::
    (ascription decl.type ++ initializer decl.value)

/-- `@name`, where it is written. -/
def label : Option Ident → List Piece
  | none => []
  | some x => [sign .atSign, name x]

/-- A condition in its parentheses and the block under it. -/
def branch (b : Expr × Block) : List Piece :=
  [sign .openParen, expr b.1, sign .closeParen, block b.2]

/-- The branches of an `if`. -/
def branches : List (Expr × Block) → List Piece
  | [] => []
  | first :: rest =>
    sign .kwIf :: (branch first ++ rest.flatMap fun b => sign .kwElse :: sign .kwIf :: branch b)

/-- The final `else`, where it is written. -/
def otherwise : Option Block → List Piece
  | none => []
  | some b => [sign .kwElse, block b]

/-- A statement with the semicolon that ends it. -/
def stmt (s : Stmt) : List Piece :=
  .node (.stmt s) ::
    match s.kind with
    | .decl _ | .assign .. | .expr _ => [sign .semicolon]
    | _ => []

/-- The body of a function, or the semicolon in its place. -/
def body : Option Block → List Piece
  | none => [sign .semicolon]
  | some b => [block b]

/-- A part of a struct's body. -/
def structPart : Grammar.StructPart → List Piece
  | .field decl => varDecl decl ++ [sign .semicolon]
  | .method decl =>
    (match decl.kind with
      | .constMethod => [sign .kwConst]
      | .static => [sign .kwStatic]
      | .plain | .method => []) ++ [.node (.function decl)]

/-- A parameter of a macro. -/
def macroParam (p : MacroParam) : List Piece :=
  (if p.constant then [sign .hash] else []) ++ [type p.type]

/-- Type parameters, where they are written. -/
def Template (names : List Ident) (form : List Piece) : Prop :=
  (names = [] ∧ form = []) ∨
    ∃ inner, Separated (names.map fun x => [name x]) inner ∧
      form = sign .kwTemplate :: sign .less :: (inner ++ [sign .greater])

/-- The forms of a declaration without its type parameters. -/
inductive Declaration : ItemKind → List Piece → Prop where
  | function {decl} : Declaration (.function decl) [.node (.function decl)]
  | struct {x} {parts : List Grammar.StructPart} :
      Declaration (.struct ⟨x, parts.filterMap fun | .field decl => some decl | .method _ => none,
          parts.filterMap fun | .field _ => none | .method decl => some decl⟩)
        (sign .kwStruct :: name x :: sign .openCurly :: (parts.flatMap structPart ++ [sign .closeCurly]))
  | global {decl} : Declaration (.global decl) (varDecl decl ++ [sign .semicolon])
  | typeAlias {x t} :
      Declaration (.typeAlias x t) [sign .kwTypealias, name x, sign .assignment, type t, sign .semicolon]
  | macroDecl {decl params} (h : Parameters (decl.params.map macroParam) decl.variadic params) :
      Declaration (.macroDecl decl)
        (sign .kwMacro :: name decl.name :: sign .openParen ::
          (params ++ sign .closeParen :: (ascription decl.returns ++ [sign .semicolon])))

/-- The forms of a node: what its span covers, and what stands behind that. -/
inductive Production : Node → List Piece → List Piece → Prop where
  | number {value s} :
      Production (.expr (.mk (.number value) s))
        [.token fun t => t.kind = .number ∧ decimalValue t.value.toList = value] []
  | bool {value s} :
      Production (.expr (.mk (.bool value) s)) [sign (if value then .kwTrue else .kwFalse)] []
  | str {text s} :
      Production (.expr (.mk (.str text) s)) [.token fun t => t.kind = .string ∧ t.value = text] []
  | path {names args targs s} (h : TypeArgs args targs) :
      Production (.expr (.mk (.path names args) s)) (path names ++ targs) []
  | macroCall {names args inner s} (h : Arguments args inner) :
      Production (.expr (.mk (.macroCall names args) s)) (Spelling.path names ++ sign .not :: inner) []
  | structValue {t fields form s} (h : Fields fields form) :
      Production (.expr (.mk (.structInit t fields false) s)) (type t :: form) []
  | unary {op e s} :
      Production (.expr (.mk (.unary op e) s)) [sign (.ofUnary op), expr e] []
  | ref {e constant s} :
      Production (.expr (.mk (.ref e constant) s))
        (sign .ampersand :: ((if constant then [sign .kwConst] else []) ++ [expr e])) []
  | deref {e s} : Production (.expr (.mk (.deref e) s)) [sign .star, expr e] []
  | share {e s} : Production (.expr (.mk (.share e) s)) [sign .hash, expr e] []
  | group {kind s inner} :
      Production (.expr (.mk kind s)) [sign .openParen, expr (.mk kind inner), sign .closeParen] []
  | array {kind form s} (h : Allocated false kind form) : Production (.expr (.mk kind s)) form []
  | allocation {kind form s} (h : Allocated true kind form) :
      Production (.expr (.mk kind s)) (sign .kwNew :: form) []
  | call {callee args form s} (h : Arguments args form) :
      Production (.expr (.mk (.call callee args) s)) (expr callee :: form) []
  | index {base position s} :
      Production (.expr (.mk (.index base position) s))
        [expr base, sign .openBracket, expr position, sign .closeBracket] []
  | member {base x s} : Production (.expr (.mk (.member base x) s)) [expr base, sign .dot, name x] []
  | binary {op left right s} :
      Production (.expr (.mk (.binary op left right) s)) [expr left, sign (.ofBinary op), expr right] []
  | named {names args targs s} (h : TypeArgs args targs) :
      Production (.type (.mk (.named names args) s)) (Spelling.path names ++ targs) []
  | structType {names args targs s} (h : TypeArgs args targs) :
      Production (.type (.mk (.named names args) s)) (Spelling.path names) targs
  | pointer {kind form s} (h : Pointer false kind form) : Production (.type (.mk kind s)) form []
  | constPointer {kind form s} (h : Pointer true kind form) :
      Production (.type (.mk kind s)) (sign .kwConst :: form) []
  | arrayType {element size s} :
      Production (.type (.mk (.array element false size) s))
        (type element :: sign .openBracket :: (size.toList.map expr ++ [sign .closeBracket])) []
  | constArray {element constant size s inner} :
      Production (.type (.mk (.array element true size) s))
        [sign .kwConst, type (.mk (.array element constant size) inner)] []
  | func {params variadic returns form s} (h : Parameters (params.map fun t => [type t]) variadic form) :
      Production (.type (.mk (.func params variadic returns) s))
        (sign .openParen :: (form ++ [sign .closeParen, sign .colon, type returns])) []
  | typeGroup {kind s inner form} (h : Listed [[type (.mk kind inner)]] form) :
      Production (.type (.mk kind s)) (sign .openParen :: (form ++ [sign .closeParen])) []
  | decl {decl s} : Production (.stmt (.mk (.decl decl) s)) (varDecl decl) []
  | assign {target op value s} :
      Production (.stmt (.mk (.assign target op value) s))
        [expr target, .token fun t => Grammar.assignmentOp? t.kind = some op, expr value] []
  | exprStmt {e s} : Production (.stmt (.mk (.expr e) s)) [expr e] []
  | ret {value s} :
      Production (.stmt (.mk (.ret value) s)) (sign .kwReturn :: (value.toList.map expr ++ [sign .semicolon])) []
  | brk {x s} : Production (.stmt (.mk (.brk x) s)) (sign .kwBreak :: (label x ++ [sign .semicolon])) []
  | cont {x s} : Production (.stmt (.mk (.cont x) s)) (sign .kwContinue :: (label x ++ [sign .semicolon])) []
  | cond {bs b s} : Production (.stmt (.mk (.cond bs b) s)) (branches bs ++ otherwise b) []
  | loop {x test b s} :
      Production (.stmt (.mk (.loop x test b) s)) (sign .kwWhile :: (label x ++ branch (test, b))) []
  | forLoop {x init test step b s} :
      Production (.stmt (.mk (.forLoop x init test step b) s))
        (sign .kwFor :: (label x ++ sign .openParen :: (init.toList.map (fun s => .node (.stmt s)) ++
          sign .semicolon :: (test.toList.map expr ++ sign .semicolon ::
            (step.toList.map (fun s => .node (.stmt s)) ++ [sign .closeParen, block b]))))) []
  | scope {b s} : Production (.stmt (.mk (.scope b) s)) [block b] []
  | block {stmts s} :
      Production (.block (.mk stmts s)) (sign .openCurly :: (stmts.flatMap stmt ++ [sign .closeCurly])) []
  | function {decl params}
      (h : Parameters (decl.params.map fun p => [name p.name, sign .colon, type p.type]) decl.variadic params) :
      Production (.function decl)
        (sign .kwFn :: name decl.name :: sign .openParen ::
          (params ++ sign .closeParen :: (ascription decl.returns ++ body decl.body))) []
  | item {kind names template form s} (ht : Template names template) (h : Declaration kind form) :
      Production (.item ⟨kind, names, s⟩) (template ++ form) []

end Spelling

/-- A span is that of certain tokens, from the first to the last. -/
def Span.Covers (s : Span) (own : List Token) : Prop :=
  ∃ first last, own.head? = some first ∧ own.getLast? = some last ∧
    s.file = first.span.file ∧ s.start = first.span.start ∧ s.stop = last.span.stop

namespace Spelling

open Surface

/-- Tokens are written in a form. -/
inductive Spells : List Token → List Piece → Prop where
  | nil : Spells [] []
  | token {p t ts form} (ht : p t) (h : Spells ts form) : Spells (t :: ts) (.token p :: form)
  | node {n covered behind own more ts form} (hform : Production n covered behind) (hown : Spells own covered)
      (hspan : n.span.Covers own) (hmore : Spells more behind) (h : Spells ts form) :
      Spells (own ++ (more ++ ts)) (.node n :: form)

end Spelling

end OwnLang
