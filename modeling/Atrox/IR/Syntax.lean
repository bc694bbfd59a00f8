import Mathlib.Data.List.Basic
import Mathlib.Data.List.Nodup

/-!
# LLVM values, instructions, blocks and modules

The part of the LLVM 7 object model that the passes read and write. Pointers to
instructions, blocks and functions are numbers; a value carries its type, as an
`llvm::Value` does. GEPs may have vectors for a base or for indices (`TypedGEP` types
them); a result without them says so: `GEPsFromPointers` and `GEPsYieldPointers`, for
the values that the exit block stores.
-/

namespace Atrox.IR

abbrev InstId := Nat
abbrev BlockId := Nat
abbrev FuncId := Nat

/-- Types. A struct is the chain of its fields (`structCons f (structCons g structNil)`). -/
inductive Ty where
  | void
  | int (width : Nat)
  | fp (width : Nat)
  | ptr (elem : Ty) (addrSpace : Nat)
  | array (size : Nat) (elem : Ty)
  | vector (size : Nat) (elem : Ty)
  | structNil
  | structCons (field rest : Ty)
  | other (tag : Nat)
  deriving DecidableEq

/-- `Type::isPointerTy`. -/
def Ty.isPointerTy : Ty → Bool
  | .ptr _ _ => true
  | _ => false

/-- `Type::isIntegerTy`. -/
def Ty.isIntegerTy : Ty → Bool
  | .int _ => true
  | _ => false

/-- `Type::isFloatingPointTy`. -/
def Ty.isFloatingPointTy : Ty → Bool
  | .fp _ => true
  | _ => false

/-- `PointerType::getUnqual`: address space 0. -/
def Ty.getUnqual (t : Ty) : Ty := .ptr t 0

/-- `StructType::get`. -/
def Ty.structOf : List Ty → Ty
  | [] => .structNil
  | t :: ts => .structCons t (structOf ts)

/-- Type read through a pointer of type `t`. -/
def Ty.pointee : Ty → Ty
  | .ptr e _ => e
  | t => t

/-- Constants other than globals and functions. `mul` and `add` are what the
constant folder of `IRBuilder` leaves when it has no integers to fold. -/
inductive Const where
  | int (width : Nat) (bits : Nat)
  | symbol (id : Nat) (ty : Ty) (blockAddress : Bool)
  | splat (size : Nat) (c : Const)
  | mul (a b : Const)
  | add (a b : Const)
  deriving DecidableEq

def Const.ty : Const → Ty
  | .int w _ => .int w
  | .symbol _ t _ => t
  | .splat n c => .vector n c.ty
  | .mul a _ => a.ty
  | .add a _ => a.ty

/-- Some `BlockAddress` is reachable through the operands of the constant. -/
def Const.usesBlockAddress : Const → Bool
  | .int _ _ => false
  | .symbol _ _ b => b
  | .splat _ c => c.usesBlockAddress
  | .mul a b => a.usesBlockAddress || b.usesBlockAddress
  | .add a b => a.usesBlockAddress || b.usesBlockAddress

/-- `llvm::Value` as an operand. `global` is a `GlobalVariable` of the given
value type; `func` is the address of a function. -/
inductive Value where
  | const (c : Const)
  | func (f : FuncId)
  | global (g : Nat) (valueTy : Ty) (addrSpace : Nat)
  | arg (f : FuncId) (index : Nat) (ty : Ty)
  | inst (i : InstId) (ty : Ty)
  deriving DecidableEq

def Value.ty : Value → Ty
  | .const c => c.ty
  | .func f => .ptr (.other f) 0
  | .global _ t a => .ptr t a
  | .arg _ _ t => t
  | .inst _ t => t

/-- `isa<GlobalVariable>`. -/
def Value.isGlobalVariable : Value → Bool
  | .global .. => true
  | _ => false

/-- A constant or a global: a value that belongs to no function. -/
def Value.isModuleLevel : Value → Bool
  | .const _ | .func _ | .global .. => true
  | _ => false

/-- Instructions and functions that the value names have numbers below `n`. -/
def Value.below (n : Nat) : Value → Prop
  | .inst i _ => n > i
  | .arg f _ _ => n > f
  | _ => True

instance (n : Nat) (v : Value) : Decidable (v.below n) :=
  match v with
  | .inst i _ => inferInstanceAs (Decidable (n > i))
  | .arg f _ _ => inferInstanceAs (Decidable (n > f))
  | .const _ | .func _ | .global .. => inferInstanceAs (Decidable True)

theorem Value.below.mono {n m : Nat} {v : Value} (h : v.below n) (hnm : n ≤ m) : v.below m := by
  cases v with
  | inst i t => exact Nat.lt_of_lt_of_le h hnm
  | arg f k t => exact Nat.lt_of_lt_of_le h hnm
  | const c => trivial
  | func f => trivial
  | global g t a => trivial

/-- The value is the instruction of the number. -/
def Value.isInst (i : InstId) : Value → Bool
  | .inst j _ => j = i
  | _ => false

/-- The intrinsics the sources tell apart. -/
inductive IntrinsicID where
  | lifetimeStart | lifetimeEnd | invariantStart | invariantEnd
  | varAnnotate | ptrAnnotate | annotate | donothing | assume
  | dbgValue | dbgDeclare | dbgLabel | vastart | vaend
  | memset | memcpy | memmove | other (id : Nat)
  deriving DecidableEq

/-- A directly called function. -/
structure Callee where
  function : FuncId
  isDeclaration : Bool
  intrinsic : Option IntrinsicID
  deriving DecidableEq

/-- Opcodes. A call keeps its called function, when it is known
(`getCalledFunction`), and whether the call site is marked `readnone`. -/
inductive Opcode where
  | phi | br | switch | indirectBr | ret | unreachable | resume | invoke
  | catchSwitch | catchRet | cleanupRet | landingPad | catchPad | cleanupPad
  | load | store | fence | vaArg | atomicCmpXchg | atomicRMW
  | getElementPtr | alloca | cast | mul | add
  | call (callee : Option Callee) (readNone : Bool)
  | other (code : Nat)
  deriving DecidableEq

def Opcode.isTerminator : Opcode → Bool
  | .br | .switch | .indirectBr | .ret | .unreachable | .resume | .invoke
  | .catchSwitch | .catchRet | .cleanupRet => true
  | _ => false

def Opcode.isEHPad : Opcode → Bool
  | .catchSwitch | .landingPad | .catchPad | .cleanupPad => true
  | _ => false

/-- Intrinsic called by an `IntrinsicInst`. -/
def Opcode.intrinsic? : Opcode → Option IntrinsicID
  | .call (some c) _ => c.intrinsic
  | _ => none

/-- An instruction. `incoming` holds the incoming blocks of a PHI, one for each
operand; `succs` the successors of a terminator. A call lists its arguments and
then the called value. -/
structure Inst where
  id : Nat
  op : Opcode
  ty : Ty
  operands : List Value
  incoming : List BlockId
  succs : List BlockId
  deriving DecidableEq

namespace Inst

/-- The instruction as an operand of others. -/
def val (i : Inst) : Value := .inst i.id i.ty

def isPHI (i : Inst) : Bool := i.op = .phi

/-- `BranchInst::isUnconditional`. -/
def isUncondBr (i : Inst) : Bool := i.op = .br && i.operands.isEmpty

/-- Some operand is the instruction of the number. -/
def uses (i : InstId) (u : Inst) : Bool := u.operands.any (Value.isInst i)

/-- `br label s`. -/
def uncondBr (id : InstId) (s : BlockId) : Inst := ⟨id, .br, .void, [], [], [s]⟩

/-- Incoming value of a PHI for a predecessor. -/
def incomingValue? (i : Inst) (p : BlockId) : Option Value :=
  (i.incoming.zip i.operands).lookup p

/-- `User::replaceUsesOfWith` for a value. -/
def replaceUsesOfWith (src dst : Value) (i : Inst) : Inst :=
  { i with operands := i.operands.map fun v => if v = src then dst else v }

/-- `User::replaceUsesOfWith` for a successor block. -/
def replaceSuccOfWith (src dst : BlockId) (i : Inst) : Inst :=
  { i with succs := i.succs.map fun s => if s = src then dst else s }

/-- `PHINode::setIncomingBlock` wherever the incoming block is `src`. -/
def replaceIncomingOfWith (src dst : BlockId) (i : Inst) : Inst :=
  { i with incoming := i.incoming.map fun p => if p = src then dst else p }

end Inst

/-- A basic block. -/
structure Block where
  id : Nat
  insts : List Inst
  hasAddressTaken : Bool
  deriving DecidableEq

namespace Block

/-- `getTerminator`. -/
def terminator? (b : Block) : Option Inst := b.insts.getLast?

/-- `successors(BB)`. -/
def succs (b : Block) : List BlockId := (b.terminator?.map Inst.succs).getD []

/-- `phis()`. -/
def phis (b : Block) : List Inst := b.insts.takeWhile Inst.isPHI

/-- Position of `getFirstNonPHI`. -/
def firstNonPHI (b : Block) : Nat := b.phis.length

/-- The instruction is in the block. -/
def has (b : Block) (i : InstId) : Bool := b.insts.any fun x => x.id = i

def mapInsts (f : Inst → Inst) (b : Block) : Block := { b with insts := b.insts.map f }

def mapTerminator (f : Inst → Inst) (b : Block) : Block :=
  { b with insts := b.insts.dropLast ++ (b.insts.getLast?.map f).toList }

end Block

/-- A parameter of a function. -/
structure Param where
  name : String
  ty : Ty
  deriving DecidableEq

/-- A function. The first block is the entry block. -/
structure Function where
  id : Nat
  params : List Param
  isVarArg : Bool
  blocks : List Block
  deriving DecidableEq

def Function.insts (f : Function) : List Inst := f.blocks.flatMap Block.insts

def Function.mapBlocks (g : Block → Block) (f : Function) : Function :=
  { f with blocks := f.blocks.map g }

/-- A module. Every number from `nextId` on is free for a new instruction,
block or function. `valueName` is `Value::getName`; `initUsesBlockAddress` tells
of a global whether a `BlockAddress` is reachable through its initializer. -/
structure Module where
  funcs : List Function
  nextId : Nat
  valueName : Value → String
  initUsesBlockAddress : Value → Bool

namespace Module

def blocks (M : Module) : List Block := M.funcs.flatMap Function.blocks

def insts (M : Module) : List Inst := M.blocks.flatMap Block.insts

def block? (M : Module) (b : BlockId) : Option Block := M.blocks.find? fun x => x.id = b

def inst? (M : Module) (i : InstId) : Option Inst := M.insts.find? fun x => x.id = i

/-- The function that holds a block (`BasicBlock::getParent`). -/
def parent? (M : Module) (b : BlockId) : Option Function :=
  M.funcs.find? fun f => f.blocks.any fun x => x.id = b

/-- Some `BlockAddress` is reachable through the value, when it is no instruction. -/
def usesBlockAddress (M : Module) : Value → Bool
  | .const c => c.usesBlockAddress
  | .func f => M.initUsesBlockAddress (.func f)
  | .global g t a => M.initUsesBlockAddress (.global g t a)
  | _ => false

/-- Users of a value that are instructions (`Value::users`). -/
def users (M : Module) (v : Value) : List Inst := M.insts.filter fun u => v ∈ u.operands

/-- `predecessors(BB)`. -/
def preds (M : Module) (b : BlockId) : List BlockId :=
  (M.blocks.filter fun p => b ∈ p.succs).map Block.id

/-- The blocks of a set of blocks, in its order. -/
def region (M : Module) (bs : List BlockId) : List Block := bs.filterMap M.block?

def regionInsts (M : Module) (bs : List BlockId) : List Inst := (M.region bs).flatMap Block.insts

/-- `Blocks.count(I->getParent())` for the instruction `i`. -/
def definedIn (M : Module) (bs : List BlockId) (i : InstId) : Bool :=
  M.blocks.any fun b => b.id ∈ bs && b.has i

def mapBlocks (g : Block → Block) (M : Module) : Module :=
  { M with funcs := M.funcs.map (Function.mapBlocks g) }

/-- Rewrites the blocks whose number is in `bs` and no other. -/
def mapIn (bs : List BlockId) (g : Block → Block) (M : Module) : Module :=
  M.mapBlocks fun b => if b.id ∈ bs then g b else b

/-- The block is the entry block of its function. -/
def isEntryBlock (M : Module) (b : BlockId) : Bool :=
  M.funcs.any fun f => (f.blocks.head?.map Block.id) = some b

end Module

end Atrox.IR
