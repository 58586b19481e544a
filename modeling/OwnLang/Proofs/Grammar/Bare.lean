import OwnLang.Source.Decimal
import OwnLang.Surface.Item

/-!
# Syntax without places, and syntax that can be written

`bare` takes the places out of a node, so that two nodes are the same up to places just if they are
equal when they are bare. `WellFormed` says which nodes have a spelling: paths have a name, a struct
value on the stack names its type, a branch has a condition, and so on.
-/

namespace OwnLang.Surface

/-- A name without its place. -/
def Ident.bare (name : Ident) : Ident := ⟨name.name, .null⟩

/-! ## Expressions and types -/

mutual

/-- An expression without places. -/
def Expr.bare : Expr → Expr
  | .mk kind _ => .mk kind.bare .null

/-- The form of an expression without places. -/
def ExprKind.bare : ExprKind → ExprKind
  | .number value => .number value
  | .bool value => .bool value
  | .str text => .str text
  | .path path args => .path (path.map Ident.bare) (bareTypes args)
  | .call callee args => .call callee.bare (bareExprs args)
  | .macroCall path args => .macroCall (path.map Ident.bare) (bareExprs args)
  | .binary op left right => .binary op left.bare right.bare
  | .unary op operand => .unary op operand.bare
  | .ref target constant => .ref target.bare constant
  | .deref pointer => .deref pointer.bare
  | .share owner => .share owner.bare
  | .index base index => .index base.bare index.bare
  | .member base name => .member base.bare name.bare
  | .new type value => .new type.bare value.bare
  | .structInit type fields heap => .structInit type.bare (bareFields fields) heap
  | .arrayInit element values heap => .arrayInit element.bare (bareExprs values) heap
  | .arrayFill element size value heap => .arrayFill element.bare size.bare value.bare heap

/-- Expressions without places. -/
def bareExprs : List Expr → List Expr
  | [] => []
  | e :: rest => e.bare :: bareExprs rest

/-- The fields of a struct value without places. -/
def bareFields : List (Ident × Expr) → List (Ident × Expr)
  | [] => []
  | (name, value) :: rest => (name.bare, value.bare) :: bareFields rest

/-- A type without places. -/
def TypeExpr.bare : TypeExpr → TypeExpr
  | .mk kind _ => .mk kind.bare .null

/-- The form of a type without places. -/
def TypeKind.bare : TypeKind → TypeKind
  | .named path args => .named (path.map Ident.bare) (bareTypes args)
  | .owner target constant => .owner target.bare constant
  | .shared target constant => .shared target.bare constant
  | .array element constant size => .array element.bare constant (bareSize size)
  | .func params variadic returns => .func (bareTypes params) variadic returns.bare

/-- Types without places. -/
def bareTypes : List TypeExpr → List TypeExpr
  | [] => []
  | t :: rest => t.bare :: bareTypes rest

/-- The size of an array type without places. -/
def bareSize : Option Expr → Option Expr
  | none => none
  | some size => some size.bare

end

theorem bareExprs_eq_map (l : List Expr) : bareExprs l = l.map Expr.bare := by
  induction l with
  | nil => rfl
  | cons e l ih => rw [bareExprs, ih, List.map_cons]

theorem bareTypes_eq_map (l : List TypeExpr) : bareTypes l = l.map TypeExpr.bare := by
  induction l with
  | nil => rfl
  | cons t l ih => rw [bareTypes, ih, List.map_cons]

theorem bareFields_eq_map (l : List (Ident × Expr)) :
    bareFields l = l.map fun field => (field.1.bare, field.2.bare) := by
  induction l with
  | nil => rfl
  | cons field l ih => rw [bareFields, ih, List.map_cons]

mutual

/-- An expression that has a spelling. -/
def Expr.WellFormed : Expr → Prop
  | .mk kind _ => kind.WellFormed

/-- A form of an expression that has a spelling. -/
def ExprKind.WellFormed : ExprKind → Prop
  | .number value => value < wordBound
  | .bool _ => True
  | .str _ => True
  | .path path args => path ≠ [] ∧ WellFormedTypes args
  | .call callee args => callee.WellFormed ∧ WellFormedExprs args
  | .macroCall path args => path ≠ [] ∧ WellFormedExprs args
  | .binary _ left right => left.WellFormed ∧ right.WellFormed
  | .unary _ operand => operand.WellFormed
  | .ref target _ => target.WellFormed
  | .deref pointer => pointer.WellFormed
  | .share owner => owner.WellFormed
  | .index base index => base.WellFormed ∧ index.WellFormed
  | .member base _ => base.WellFormed
  | .new type value => type.WellFormed ∧ value.WellFormed
  | .structInit type fields heap =>
    type.WellFormed ∧ WellFormedFields fields ∧
      (heap = false → ∃ path args, type.kind = .named path args)
  | .arrayInit element values _ => element.WellFormed ∧ WellFormedExprs values
  | .arrayFill element size value _ => element.WellFormed ∧ size.WellFormed ∧ value.WellFormed

/-- Expressions that have spellings. -/
def WellFormedExprs : List Expr → Prop
  | [] => True
  | e :: rest => e.WellFormed ∧ WellFormedExprs rest

/-- Fields of a struct value that have spellings. -/
def WellFormedFields : List (Ident × Expr) → Prop
  | [] => True
  | (_, value) :: rest => value.WellFormed ∧ WellFormedFields rest

/-- A type that has a spelling. -/
def TypeExpr.WellFormed : TypeExpr → Prop
  | .mk kind _ => kind.WellFormed

/-- A form of a type that has a spelling. -/
def TypeKind.WellFormed : TypeKind → Prop
  | .named path args => path ≠ [] ∧ WellFormedTypes args
  | .owner target _ => target.WellFormed
  | .shared target _ => target.WellFormed
  | .array element _ size => element.WellFormed ∧ WellFormedSize size
  | .func params _ returns => WellFormedTypes params ∧ returns.WellFormed

/-- Types that have spellings. -/
def WellFormedTypes : List TypeExpr → Prop
  | [] => True
  | t :: rest => t.WellFormed ∧ WellFormedTypes rest

/-- A size of an array type that has a spelling. -/
def WellFormedSize : Option Expr → Prop
  | none => True
  | some size => size.WellFormed

end

theorem wellFormedExprs_iff (l : List Expr) : WellFormedExprs l ↔ ∀ e ∈ l, e.WellFormed := by
  induction l with
  | nil => simp [WellFormedExprs]
  | cons e l ih => rw [WellFormedExprs, ih, List.forall_mem_cons]

theorem wellFormedTypes_iff (l : List TypeExpr) : WellFormedTypes l ↔ ∀ t ∈ l, t.WellFormed := by
  induction l with
  | nil => simp [WellFormedTypes]
  | cons t l ih => rw [WellFormedTypes, ih, List.forall_mem_cons]

theorem wellFormedFields_iff (l : List (Ident × Expr)) :
    WellFormedFields l ↔ ∀ field ∈ l, field.2.WellFormed := by
  induction l with
  | nil => simp [WellFormedFields]
  | cons field l ih => rw [WellFormedFields, ih, List.forall_mem_cons]

/-! ## Statements -/

/-- A declaration without places. -/
def VarDecl.bare (decl : VarDecl) : VarDecl :=
  ⟨decl.name.bare, decl.constant, decl.type.map TypeExpr.bare, decl.value.map Expr.bare⟩

mutual

/-- A statement without places. -/
def Stmt.bare : Stmt → Stmt
  | .mk kind _ => .mk kind.bare .null

/-- The form of a statement without places. -/
def StmtKind.bare : StmtKind → StmtKind
  | .decl decl => .decl decl.bare
  | .assign target op value => .assign target.bare op value.bare
  | .expr value => .expr value.bare
  | .ret value => .ret (value.map Expr.bare)
  | .brk label => .brk (label.map Ident.bare)
  | .cont label => .cont (label.map Ident.bare)
  | .cond branches otherwise => .cond (bareBranches branches) (bareOtherwise otherwise)
  | .loop label condition body => .loop (label.map Ident.bare) condition.bare body.bare
  | .forLoop label init condition step body =>
    .forLoop (label.map Ident.bare) (bareOptional init) (condition.map Expr.bare) (bareOptional step)
      body.bare
  | .scope block => .scope block.bare

/-- A statement without places, where there is one. -/
def bareOptional : Option Stmt → Option Stmt
  | none => none
  | some stmt => some stmt.bare

/-- Branches without places. -/
def bareBranches : List (Expr × Block) → List (Expr × Block)
  | [] => []
  | (condition, body) :: rest => (condition.bare, body.bare) :: bareBranches rest

/-- A final branch without places. -/
def bareOtherwise : Option Block → Option Block
  | none => none
  | some block => some block.bare

/-- A block without places. -/
def Block.bare : Block → Block
  | .mk stmts _ => .mk (bareStmts stmts) .null

/-- Statements without places. -/
def bareStmts : List Stmt → List Stmt
  | [] => []
  | stmt :: rest => stmt.bare :: bareStmts rest

end

theorem bareStmts_eq_map (l : List Stmt) : bareStmts l = l.map Stmt.bare := by
  induction l with
  | nil => rfl
  | cons stmt l ih => rw [bareStmts, ih, List.map_cons]

theorem bareBranches_eq_map (l : List (Expr × Block)) :
    bareBranches l = l.map fun branch => (branch.1.bare, branch.2.bare) := by
  induction l with
  | nil => rfl
  | cons branch l ih => rw [bareBranches, ih, List.map_cons]

theorem bareOptional_eq_map (stmt : Option Stmt) : bareOptional stmt = stmt.map Stmt.bare := by
  cases stmt <;> rfl

theorem bareOtherwise_eq_map (block : Option Block) : bareOtherwise block = block.map Block.bare := by
  cases block <;> rfl

/-- The type and the value of a declaration have spellings. -/
def VarDecl.PartsWellFormed (decl : VarDecl) : Prop :=
  (∀ t ∈ decl.type, t.WellFormed) ∧ ∀ v ∈ decl.value, v.WellFormed

/-- A variable or constant that has a spelling: one of its type and its value is written, and the value
of a constant always. -/
def VarDecl.WellFormed (decl : VarDecl) : Prop :=
  decl.PartsWellFormed ∧ (decl.value = none → decl.constant = false ∧ decl.type ≠ none)

/-- A field that has a spelling: one of its type and its default is written. -/
def VarDecl.WellFormedField (decl : VarDecl) : Prop :=
  decl.PartsWellFormed ∧ (decl.value = none → decl.type ≠ none)

/-- A statement that may stand in the header of a `for` loop. -/
def Stmt.IsSimple (stmt : Stmt) : Prop :=
  match stmt.kind with
  | .decl _ | .assign .. | .expr _ => True
  | _ => False

mutual

/-- A statement that has a spelling. -/
def Stmt.WellFormed : Stmt → Prop
  | .mk kind _ => kind.WellFormed

/-- A form of a statement that has a spelling. -/
def StmtKind.WellFormed : StmtKind → Prop
  | .decl decl => decl.WellFormed
  | .assign target _ value => target.WellFormed ∧ value.WellFormed
  | .expr value => value.WellFormed
  | .ret value => ∀ v ∈ value, v.WellFormed
  | .brk _ => True
  | .cont _ => True
  | .cond branches otherwise =>
    branches ≠ [] ∧ WellFormedBranches branches ∧ WellFormedOtherwise otherwise
  | .loop _ condition body => condition.WellFormed ∧ body.WellFormed
  | .forLoop _ init condition step body =>
    WellFormedHeader init ∧ (∀ c ∈ condition, c.WellFormed) ∧ WellFormedHeader step ∧ body.WellFormed
  | .scope block => block.WellFormed

/-- A statement that has a spelling in the header of a `for` loop. -/
def WellFormedHeader : Option Stmt → Prop
  | none => True
  | some stmt => stmt.WellFormed ∧ stmt.IsSimple

/-- Branches that have spellings. -/
def WellFormedBranches : List (Expr × Block) → Prop
  | [] => True
  | (condition, body) :: rest => condition.WellFormed ∧ body.WellFormed ∧ WellFormedBranches rest

/-- A final branch that has a spelling. -/
def WellFormedOtherwise : Option Block → Prop
  | none => True
  | some block => block.WellFormed

/-- A block that has a spelling. -/
def Block.WellFormed : Block → Prop
  | .mk stmts _ => WellFormedStmts stmts

/-- Statements that have spellings. -/
def WellFormedStmts : List Stmt → Prop
  | [] => True
  | stmt :: rest => stmt.WellFormed ∧ WellFormedStmts rest

end

theorem wellFormedBranches_iff (l : List (Expr × Block)) :
    WellFormedBranches l ↔ ∀ branch ∈ l, branch.1.WellFormed ∧ branch.2.WellFormed := by
  induction l with
  | nil => simp [WellFormedBranches]
  | cons branch l ih => rw [WellFormedBranches, ih, List.forall_mem_cons, and_assoc]

theorem wellFormedStmts_iff (l : List Stmt) : WellFormedStmts l ↔ ∀ s ∈ l, s.WellFormed := by
  induction l with
  | nil => simp [WellFormedStmts]
  | cons s l ih => rw [WellFormedStmts, ih, List.forall_mem_cons]

/-! ## Declarations -/

/-- A parameter without places. -/
def Param.bare (p : Param) : Param := ⟨p.name.bare, p.type.bare⟩

/-- A macro's parameter without places. -/
def MacroParam.bare (p : MacroParam) : MacroParam := ⟨p.constant, p.type.bare⟩

/-- A function without places. -/
def FnDecl.bare (decl : FnDecl) : FnDecl :=
  { name := decl.name.bare
    kind := decl.kind
    params := decl.params.map Param.bare
    variadic := decl.variadic
    returns := decl.returns.map TypeExpr.bare
    body := decl.body.map Block.bare
    span := .null }

/-- A struct without places. -/
def StructDecl.bare (decl : StructDecl) : StructDecl :=
  ⟨decl.name.bare, decl.fields.map VarDecl.bare, decl.methods.map FnDecl.bare⟩

/-- A macro without places. -/
def MacroDecl.bare (decl : MacroDecl) : MacroDecl :=
  { name := decl.name.bare
    params := decl.params.map MacroParam.bare
    variadic := decl.variadic
    returns := decl.returns.map TypeExpr.bare }

/-- The form of a declaration without places. -/
def ItemKind.bare : ItemKind → ItemKind
  | .function decl => .function decl.bare
  | .struct decl => .struct decl.bare
  | .global decl => .global decl.bare
  | .typeAlias name target => .typeAlias name.bare target.bare
  | .macroDecl decl => .macroDecl decl.bare

/-- A declaration without places. -/
def Item.bare (item : Item) : Item := ⟨item.kind.bare, item.template.map Ident.bare, .null⟩

/-- A file without places. -/
def Module.bare (file : Module) : Module :=
  ⟨file.file, file.package.bare, file.imports.map Ident.bare, file.items.map Item.bare⟩

/-- A function that has a spelling. -/
def FnDecl.WellFormed (decl : FnDecl) : Prop :=
  (∀ p ∈ decl.params, p.type.WellFormed) ∧ (∀ t ∈ decl.returns, t.WellFormed) ∧
    ∀ b ∈ decl.body, b.WellFormed

/-- A struct that has a spelling. Its functions are methods or static. -/
def StructDecl.WellFormed (decl : StructDecl) : Prop :=
  (∀ f ∈ decl.fields, f.WellFormedField) ∧ ∀ m ∈ decl.methods, m.WellFormed ∧ m.kind ≠ .plain

/-- A macro that has a spelling. -/
def MacroDecl.WellFormed (decl : MacroDecl) : Prop :=
  (∀ p ∈ decl.params, p.type.WellFormed) ∧ ∀ t ∈ decl.returns, t.WellFormed

/-- A form of a declaration that has a spelling. -/
def ItemKind.WellFormed : ItemKind → Prop
  | .function decl => decl.WellFormed ∧ decl.kind = .plain
  | .struct decl => decl.WellFormed
  | .global decl => decl.WellFormed
  | .typeAlias _ target => target.WellFormed
  | .macroDecl decl => decl.WellFormed

/-- Whether a form of a declaration can have type parameters. -/
def ItemKind.Templated : ItemKind → Prop
  | .function _ | .struct _ | .global _ => True
  | .typeAlias .. | .macroDecl _ => False

/-- A declaration that has a spelling. -/
def Item.WellFormed (item : Item) : Prop :=
  item.kind.WellFormed ∧ (item.template ≠ [] → item.kind.Templated)

/-- A file that has a spelling. -/
def Module.WellFormed (file : Module) : Prop := ∀ item ∈ file.items, item.WellFormed

end OwnLang.Surface
