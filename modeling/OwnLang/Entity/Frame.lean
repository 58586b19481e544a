import OwnLang.Core.Stmt
import OwnLang.Entity.Basic

/-!
# Function frames

The state of checking one function body: its locals, the stack of open blocks and the stack of open
loops, both with the innermost in front. The *depth* of a block is the number of blocks around it.
-/

namespace OwnLang

open Surface (Ident)

/-- What a local does with the unique value it was declared for. -/
inductive Ownership where
  /-- Its values are copyable. -/
  | unset
  | owns
  /-- The value was moved out at a place. -/
  | moved (span : Span)
deriving DecidableEq, Inhabited

/-- A parameter or variable of a function. -/
structure Local where
  name : Ident
  type : Ty
  constant : Bool
  ownership : Ownership
  /-- The value of a constant, if it is known when compiling. -/
  value : Option Const
  /-- The depth of the block that declares it. -/
  depth : Nat
deriving Inhabited

/-- Whether a local has a unique value to free. -/
def Local.owns (l : Local) : Bool := l.ownership = .owns

/-- A move out of a local that is declared outside the innermost loop. -/
structure LoopMove where
  target : LocalId
  span : Span
deriving DecidableEq, Inhabited

/-- An open block. -/
structure BlockFrame where
  /-- Its locals, the last declared in front. -/
  locals : List LocalId := []
  /-- Whether control has left the function at this point. -/
  returned : Bool := false
  /-- The loop that control has jumped to at this point. -/
  jumpedTo : Option LoopId := none
  /-- Moves on paths that have not left the loop yet, in the order in which they were made. -/
  loopMoves : List LoopMove := []
deriving Inhabited

/-- Whether control never reaches the next statement of a block. -/
def BlockFrame.terminated (b : BlockFrame) : Bool := b.returned || b.jumpedTo.isSome

/-- An open loop. -/
structure LoopFrame where
  id : LoopId
  label : Option String
  /-- The depth of its body. -/
  bodyDepth : Nat
  hasBreak : Bool := false
deriving Inhabited

/-- The state of checking one function body. -/
structure Frame where
  function : GlobalId
  returns : Ty
  locals : Array Local := #[]
  /-- The open blocks, the innermost in front. -/
  blocks : List BlockFrame := []
  /-- The open loops, the innermost in front. -/
  loops : List LoopFrame := []
  /-- `this` and its struct, inside methods. -/
  receiver : Option (LocalId × StructId) := none
  /-- How many regions that no execution reaches are open. -/
  unreachable : Nat := 0
deriving Inhabited

namespace Frame

/-- The local of an identity. -/
def localAt (f : Frame) (id : LocalId) : Local := f.locals[id.index]?.getD default

/-- Changes a local. -/
def modifyLocal (f : Frame) (id : LocalId) (change : Local → Local) : Frame :=
  { f with locals := f.locals.modify id.index change }

/-- The number of open blocks. -/
def height (f : Frame) : Nat := f.blocks.length

/-- The innermost block. -/
def top (f : Frame) : BlockFrame := f.blocks.head?.getD {}

/-- Changes the innermost block. -/
def modifyTop (f : Frame) (change : BlockFrame → BlockFrame) : Frame :=
  match f.blocks with
  | [] => f
  | block :: rest => { f with blocks := change block :: rest }

/-- Changes the block of a depth. -/
def modifyBlock (f : Frame) (depth : Nat) (change : BlockFrame → BlockFrame) : Frame :=
  { f with blocks := f.blocks.modify (f.height - 1 - depth) change }

/-- Opens a block. -/
def openBlock (f : Frame) : Frame := { f with blocks := {} :: f.blocks }

/-- The blocks of a depth or more, the innermost in front. -/
def blocksFrom (f : Frame) (depth : Nat) : List BlockFrame := f.blocks.take (f.height - depth)

/-- The visible local of a name, the one declared last. -/
def lookup (f : Frame) (name : String) : Option LocalId :=
  (f.blocks.flatMap (·.locals)).find? fun id => (f.localAt id).name.name == name

/-- The owning locals of a block in the order in which they are freed, the last declared first. -/
def releaseOrder (f : Frame) (block : BlockFrame) : List LocalId :=
  block.locals.filter fun id => (f.localAt id).owns

/-- The owning locals of the blocks of a depth or more in the order in which they are freed. -/
def ownedFrom (f : Frame) (depth : Nat) : List LocalId :=
  (f.blocksFrom depth).flatMap f.releaseOrder

/-- Whether a local outlives the iterations of a loop. -/
def outlives (f : Frame) (id : LocalId) (loop : LoopFrame) : Bool :=
  (f.localAt id).depth < loop.bodyDepth

end Frame

end OwnLang
