import Mathlib.Algebra.Group.Nat.Defs
import Atrox.Support.ArgUtils
import Atrox.Support.GeneralUtils

/-!
# Inputs and outputs of a region (CodeExtractor.cpp)

The state of a `CodeExtractor` and what `prepare` puts into it. `none` stands for
a failed assertion or a null dereference.
-/

namespace Atrox
open IR Lib

/- `LoopIterationSpaceInfo` of an evaluated induction variable; `start` holds the
value of a `SCEVConstant`. -/
structure LoopIterationSpaceInfo where
  inductionVariable : Value
  start : Option Nat

/- The answers of a `LoopBoundsAnalyzer` for the loop and the blocks at hand. -/
structure LoopBoundsAnalyzer where
  isValueUsedOnlyInLoopNestConditions : Value → Option Bool
  isValueOuterLoopInductionVariable : Value → Bool
  isValueInnerLoopInductionVariable : Value → Bool
  getInfo : Value → Option LoopIterationSpaceInfo

structure CodeExtractor where
  iterInfo : Option IteratorInfo
  LBA : Option LoopBoundsAnalyzer
  aggregateArgs : Bool
  allowVarArgs : Bool
  flattenArrayAccesses : Bool
  outputToInputMap : OutputToInputMapTy
  inputToOutputMap : InputToOutputMapTy
  inputs : ValueSet
  outputs : ValueSet
  stackAllocas : ValueSet
  stackAllocaInits : List (Option Const)
  blocks : SetVector BlockId
  accesses : Option (List InstId)

section Eligible

/- Some instruction of the kind uses `i` from a block outside the region. -/
def hasUserOutside (M : Module) (result : SetVector BlockId) (op : Opcode) (i : InstId) : Bool :=
  M.blocks.any fun b => b.id ∉ result && b.insts.any fun u => u.op = op && u.uses i

/- The cases of the loop over the instructions of a block. -/
def isInstValidForExtraction (M : Module) (result : SetVector BlockId)
    (allowVarArgs allowAlloca : Bool) (i : Inst) : Bool :=
  match i.op with
  | .alloca => allowAlloca
  | .invoke => i.succs[1]?.all fun s => s ∈ result
  | .catchSwitch => i.succs.all fun s => s ∈ result
  | .catchPad => !hasUserOutside M result .catchRet i.id
  | .cleanupPad => !hasUserOutside M result .cleanupRet i.id
  | .cleanupRet => i.succs.all fun s => s ∈ result
  | .call (some c) _ => c.intrinsic != some .vastart || allowVarArgs
  | _ => true

def isBlockValidForExtraction (M : Module) (b : Block) (result : SetVector BlockId)
    (allowVarArgs allowAlloca : Bool) : Bool :=
  !b.hasAddressTaken &&
  (b.insts.all fun i => i.operands.all fun v => !M.usesBlockAddress v) &&
  b.insts.all (isInstValidForExtraction M result allowVarArgs allowAlloca)

/- `BasicBlock::isEHPad`. -/
def isEHPad (b : Block) : Bool := (b.insts[b.firstNonPHI]?).any fun i => i.op.isEHPad

/- The loop that fills `Result`; a block twice is `llvm_unreachable`. -/
def insertBlocks (DT : Option (BlockId → Bool)) :
    SetVector BlockId → List BlockId → Option (SetVector BlockId)
  | result, [] => some result
  | result, b :: bs =>
    if DT.any fun isReachable => !isReachable b then insertBlocks DT result bs
    else if b ∈ result then none else insertBlocks DT (result.insert b) bs

/- The predecessors outside the region are only reported: the `return {}` for
them is commented out. -/
def buildExtractionBlockSet (M : Module) (bbs : List BlockId) (DT : Option (BlockId → Bool))
    (allowVarArgs allowAlloca : Bool) : Option (SetVector BlockId) :=
  if bbs = [] then none else
  (insertBlocks DT ∅ bbs).map fun result =>
    let valid := (M.region result.elems).all fun b =>
      isBlockValidForExtraction M b result allowVarArgs allowAlloca
    let padFirst := (M.region result.elems).head?.any isEHPad
    if valid && !padFirst then result else ∅

/- The constructor. -/
def codeExtractor (M : Module) (bbs : List BlockId) (iterInfo : Option IteratorInfo)
    (LBA : Option LoopBoundsAnalyzer) (DT : Option (BlockId → Bool))
    (aggregateArgs allowVarArgs allowAlloca flattenArrayAccesses : Bool) : Option CodeExtractor :=
  (buildExtractionBlockSet M bbs DT allowVarArgs allowAlloca).map fun blocks =>
    { iterInfo, LBA, aggregateArgs, allowVarArgs, flattenArrayAccesses, blocks
      outputToInputMap := ∅, inputToOutputMap := ∅, inputs := ∅, outputs := ∅
      stackAllocas := ∅, stackAllocaInits := [], accesses := none }

def CodeExtractor.isEligible (ce : CodeExtractor) : Bool := ce.blocks.elems ≠ []

end Eligible

section Find
variable (M : Module) (blocks : SetVector BlockId)

def definedInRegion : Value → Bool
  | .inst i _ => M.definedIn blocks.elems i
  | _ => false

def definedInCaller : Value → Bool
  | .arg _ _ _ => true
  | .inst i _ => !M.definedIn blocks.elems i
  | _ => false

/- The instruction has a user outside the region. -/
def usedOutside (i : Inst) : Bool :=
  (M.users i.val).any fun u => !M.definedIn blocks.elems u.id

def findInputsOutputs (inputs outputs : ValueSet) : ValueSet × ValueSet :=
  let is := M.regionInsts blocks.elems
  (inputs.insertAll (is.flatMap fun i => i.operands.filter (definedInCaller M blocks)),
    outputs.insertAll ((is.filter (usedOutside M blocks)).map Inst.val))

/- `std::remove_if` followed by the `erase` of the one element at its result:
behind the kept elements stay those of the old tail. -/
def removeIfEraseOne {α : Type} (p : α → Bool) (xs : List α) : List α :=
  let kept := xs.filter fun x => !p x
  kept ++ xs.drop (kept.length + 1)

/- `getPointerOperand` of a GEP. -/
def gepPointer (gep : Inst) : Option Value := gep.operands.head?

/- The GEPs left in `geps`. -/
def globalGeps : List Inst :=
  removeIfEraseOne (fun e => !(gepPointer e).any Value.isGlobalVariable)
    ((M.regionInsts blocks.elems).filter fun i => i.op = .getElementPtr)

def findGlobalStep (st : ValueSet × ValueSet) (gep : Inst) : ValueSet × ValueSet :=
  match gepPointer gep with
  | none => st
  | some p =>
    let users := M.users gep.val
    let outputs := if users.any fun u => u.op = .store then st.2.insert p else st.2
    let inputs := if users.any fun u => gep.val ∉ outputs && u.op = .load then st.1.insert p
      else st.1
    (inputs, outputs)

def findGlobalInputsOutputs (inputs outputs : ValueSet) : ValueSet × ValueSet :=
  (globalGeps M blocks).foldl (findGlobalStep M) (inputs, outputs)

end Find

section MapInputs

abbrev IOMaps := InputToOutputMapTy × OutputToInputMapTy

/- One incoming value of the PHI `v`. -/
def mapIncoming (outputs : ValueSet) (v : Value) (maps : IOMaps) (incV : Value) : IOMaps :=
  if incV ∈ outputs then
    (maps.1.insert v (outputs.elems.idxOf incV), maps.2.insert incV v)
  else maps

def mapInput (M : Module) (outputs : ValueSet) (maps : IOMaps) (v : Value) : IOMaps :=
  match v with
  | .inst i _ => match M.inst? i with
    | some phi => if phi.isPHI then phi.operands.foldl (mapIncoming outputs v) maps else maps
    | none => maps
  | _ => maps

/- An output that is an input too is mapped to itself. -/
def mapOutput (inputs outputs : ValueSet) (maps : IOMaps) (o : Value) : IOMaps :=
  if o ∈ inputs then (maps.1.insert o (outputs.elems.idxOf o), maps.2.insert o o) else maps

def mapInputsOutputs (M : Module) (inputs outputs : ValueSet) (maps : IOMaps) : IOMaps :=
  outputs.elems.foldl (mapOutput inputs outputs)
    (inputs.elems.foldl (mapInput M outputs) maps)

end MapInputs

section StackAllocas

/- `ConstantInt::get`, which needs an integer type or a vector of integers. -/
def constantIntGet (t : Ty) (n : Nat) : Option Const :=
  match t with
  | .int w => some (.int w (n % 2 ^ w))
  | .vector k (.int w) => some (.splat k (.int w (n % 2 ^ w)))
  | _ => none

/- `dyn_cast<ConstantInt>`. -/
def dynCastConstantInt : Const → Option Const
  | .int w n => some (.int w n)
  | _ => none

/- `StackAllocas` and `StackAllocaInits`. -/
abbrev StackSlots := ValueSet × List (Option Const)

def pushSlot (v : Value) (init : Option Const) (s : StackSlots) : StackSlots :=
  (s.1.insert v, s.2 ++ [init])

def innerSlot (lba : LoopBoundsAnalyzer) (v : Value) (s : StackSlots) : Option StackSlots :=
  (lba.getInfo v).bind fun lbInfo => lbInfo.start.map fun _ => pushSlot v none s

/- `getZExtValue` asserts that the number has at most 64 active bits. -/
def getZExtValue (n : Nat) : Option Nat := if n < 2 ^ 64 then some n else none

/- The number an outer induction variable starts from. -/
def outerStart (start : Option Nat) : Option Nat :=
  match start with
  | some n => getZExtValue n
  | none => some 354

def outerSlot (lba : LoopBoundsAnalyzer) (v : Value) (s : StackSlots) : Option StackSlots :=
  (lba.getInfo v).bind fun lbInfo =>
  (outerStart lbInfo.start).bind fun val =>
    (constantIntGet lbInfo.inductionVariable.ty val).map fun initVal =>
      pushSlot v (dynCastConstantInt initVal) s

def condSlot (v : Value) (s : StackSlots) : Option StackSlots :=
  (constantIntGet v.ty 5).map fun initVal => pushSlot v (some initVal) s

/- One round of the loop over the inputs. -/
def stackSlot (lba : LoopBoundsAnalyzer) (s : StackSlots) (v : Value) : Option StackSlots :=
  (lba.isValueUsedOnlyInLoopNestConditions v).bind fun isCondUse =>
  let isOuterIndVar := lba.isValueOuterLoopInductionVariable v
  let isInnerIndVar := lba.isValueInnerLoopInductionVariable v
  if isCondUse && isOuterIndVar then none else
  if isCondUse && isInnerIndVar then none else
  (if isInnerIndVar then innerSlot lba v s else some s).bind fun s =>
  (if isOuterIndVar then outerSlot lba v s else some s).bind fun s =>
  if isCondUse then condSlot v s else some s

def findStackAllocatable (ce : CodeExtractor) : Option CodeExtractor :=
  match ce.LBA with
  | none => some ce
  | some lba =>
    (ce.inputs.elems.foldlM (stackSlot lba) (ce.stackAllocas, ce.stackAllocaInits)).map fun s =>
      { ce with stackAllocas := s.1, stackAllocaInits := s.2 }

end StackAllocas

namespace CodeExtractor

/- `prepare` up to the order of the inputs. -/
def findAll (ce : CodeExtractor) (M : Module) : CodeExtractor :=
  let r := findInputsOutputs M ce.blocks ∅ ∅
  let io := findGlobalInputsOutputs M ce.blocks r.1 r.2
  let maps := mapInputsOutputs M io.1 io.2 (∅, ∅)
  { ce with inputs := io.1, outputs := io.2, inputToOutputMap := maps.1, outputToInputMap := maps.2 }

def reorder (ce : CodeExtractor) : Option CodeExtractor :=
  match ce.iterInfo with
  | none => some ce
  | some info => (reorderInputs ce.inputs info).map fun r => { ce with inputs := r.2 }

def prepare (ce : CodeExtractor) (M : Module) : Option CodeExtractor :=
  (ce.findAll M).reorder.bind findStackAllocatable

def isBidirectional (ce : CodeExtractor) (v : Value) : Bool :=
  Atrox.isBidirectional v ce.outputToInputMap

def isInputOnly (ce : CodeExtractor) (v : Value) : Bool :=
  !ce.isBidirectional v && v ∉ ce.stackAllocas

def getPureInputs (ce : CodeExtractor) : ValueSet := ce.inputs.filter ce.isInputOnly

def getOutputs (ce : CodeExtractor) : ValueSet := ce.outputs

end CodeExtractor

end Atrox
