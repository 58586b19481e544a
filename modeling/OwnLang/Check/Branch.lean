import OwnLang.Check.Block

/-!
# Branches

A branch whose condition is known to be false is never taken. One whose condition is known to be
true is the last that can be taken: it stands for the `else` of the chain. If every branch that can
be taken leaves the block around them, and one of them is always taken, control does not go on
behind the `if`.
-/

namespace OwnLang.Check

/-- What is known of the branches that can be taken. -/
structure Branching where
  /-- Whether one of them is always taken. -/
  exhaustive : Bool := false
  allTerminated : Bool := true
  allReturned : Bool := true
  /-- The loop that the first of them jumps to which jumps to one. -/
  jump : Option LoopId := none
  /-- Whether a condition was known to be true. -/
  decided : Bool := false

/-- Takes note of one more branch that can be taken. -/
def Branching.add (b : Branching) (outcome : BlockFrame) : Branching :=
  { b with
    allTerminated := b.allTerminated && outcome.terminated
    allReturned := b.allReturned && outcome.returned
    jump := b.jump.or outcome.jumpedTo }

/-- Takes note of a branch with the condition that is known of it. -/
def Branching.addBranch (b : Branching) (known : Option Bool) (outcome : BlockFrame) : Branching :=
  if b.decided || known = some false then b
  else
    let added := b.add outcome
    if known = some true then { added with exhaustive := true, decided := true } else added

/-- The branches with a condition. -/
def checkBranches (ask : Asker) (scope : Scope) (b : Branching) :
    List (Surface.Expr × Surface.Block) → Check (List (Core.Expr × Core.Block) × Branching)
  | [] => return ([], b)
  | (condition, body) :: rest => do
    let test ← ask.valueOf condition Shape.bool.plain scope
    let dead := b.decided || test.known? = some false
    let (block, outcome) ← checkArm ask body dead scope
    let (branches, b) ← checkBranches ask scope (b.addBranch test.known? outcome) rest
    return ((test, block) :: branches, b)

/-- The branch without a condition. -/
def checkOtherwise (ask : Asker) (scope : Scope) (b : Branching) :
    Option Surface.Block → Check (Option Core.Block × Branching)
  | none => return (none, b)
  | some body => do
    let (block, outcome) ← checkArm ask body b.decided scope
    return (some block, if b.decided then b else { b.add outcome with exhaustive := true })

/-- The block behind the branches: where none of them goes on, it does not either. -/
def Branching.leave (b : Branching) (block : BlockFrame) : BlockFrame :=
  if b.exhaustive && b.allTerminated then
    if b.allReturned then { block with returned := true }
    else { block with jumpedTo := block.jumpedTo.or b.jump }
  else block

/-- An `if` with all its branches. -/
def condStmt (ask : Asker) (branches : List (Surface.Expr × Surface.Block))
    (otherwise : Option Surface.Block) (scope : Scope) : Check Core.StmtKind := do
  let (checked, b) ← checkBranches ask scope {} branches
  let (last, b) ← checkOtherwise ask scope b otherwise
  modifyFrame (·.modifyTop b.leave)
  return .cond checked last

end OwnLang.Check
