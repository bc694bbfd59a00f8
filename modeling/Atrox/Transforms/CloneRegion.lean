import Atrox.Transforms.CodeExtractor
import Atrox.Transforms.DecomposeMultiDimArrayRefs

/-!
# Cloning a region into a function (CodeExtractor.cpp)

`cloneCodeRegion`, step by step on the module: the clones stand at the end of the
old function until they are moved. The debug-only `verifyFunction` is left out.
-/

namespace Atrox
open IR Lib

/- `VMap`: the clones of instructions and blocks. -/
structure ValueMap where
  val : Value → Option Value
  block : BlockId → Option BlockId

section Sever

/- `ValueMap` keys follow `replaceAllUsesWith`. -/
def followRAUW {β : Type} (src dst : Value) (m : AList fun _ : Value => β) :
    AList fun _ : Value => β :=
  match m.lookup src with
  | none => m
  | some t => if dst ∈ m.erase src then m.erase src else (m.erase src).insert dst t

def numPredsFromRegion (blocks : SetVector BlockId) (pn : Inst) : Nat :=
  pn.incoming.countP fun b => b ∈ blocks

def numPredsOutsideRegion (blocks : SetVector BlockId) (pn : Inst) : Nat :=
  pn.incoming.countP fun b => b ∉ blocks

/- Whether the header is split, and the predecessors counted from the region. -/
def severs (M : Module) (blocks : SetVector BlockId) (header : Block) : Option Nat :=
  if M.isEntryBlock header.id then some 0 else
  match header.phis.head? with
  | none => none
  | some pn =>
    if numPredsOutsideRegion blocks pn ≤ 1 then none
    else some (numPredsFromRegion blocks pn)

/- One round over the PHIs of `OldPred`. A PHI left without incoming values
would be deleted under the loop. -/
def severPHI (oldPred newBB : BlockId) (st : CodeExtractor × Module) (pn : InstId) :
    Option (CodeExtractor × Module) := do
  let (ce, M) := st
  let PN ← M.inst? pn
  let newPN : Value := .inst M.nextId PN.ty
  let M₁ := M.replaceAllUsesWith PN.val newPN
  let PN := PN.replaceUsesOfWith PN.val newPN
  let edges := PN.incoming.zip PN.operands
  let moved := edges.filter fun e => e.1 ∈ ce.blocks
  let kept := edges.filter fun e => e.1 ∉ ce.blocks
  if kept = [] then none else
  let phi : Inst := ⟨M.nextId, .phi, PN.ty, PN.val :: moved.map Prod.snd,
    oldPred :: moved.map Prod.fst, []⟩
  let M₂ := M₁.mapIn [oldPred] (Block.mapInsts fun i =>
    if i.id = pn then { i with incoming := kept.map Prod.fst, operands := kept.map Prod.snd } else i)
  let M₃ := M₂.mapIn [newBB] fun b => { b with insts := phi :: b.insts }
  return ({ ce with
      inputToOutputMap := followRAUW PN.val newPN ce.inputToOutputMap
      outputToInputMap := followRAUW PN.val newPN ce.outputToInputMap },
    { M₃ with
      nextId := M.nextId + 1
      valueName := fun v => if v = newPN then M.valueName PN.val ++ ".ce" else M.valueName v })

/- `severSplitPHINodes`. The third component is the header from now on. -/
def severSplitPHINodes (ce : CodeExtractor) (M : Module) (header : BlockId) :
    Option (CodeExtractor × Module × BlockId) := do
  let hb ← M.block? header
  match severs M ce.blocks hb with
  | none => return (ce, M, header)
  | some fromRegion =>
    let firstNonPHI ← hb.insts[hb.firstNonPHI]?
    let (M₁, newBB) := M.splitBlock header firstNonPHI.id
    let ce := { ce with blocks := (ce.blocks.remove header).insert newBB }
    if fromRegion = 0 then return (ce, M₁, newBB) else
    let oldPred ← M₁.block? header
    let pn ← oldPred.phis.head?
    let latches := pn.incoming.filter fun b => b ∈ ce.blocks
    let M₂ := M₁.mapIn latches (Block.mapInsts (Inst.replaceSuccOfWith header newBB))
    let (ce, M₃) ← (oldPred.phis.map Inst.id).foldlM (severPHI header newBB) (ce, M₂)
    return (ce, M₃, newBB)

/- One round of `splitReturnBlocks`. -/
def splitReturnBlock (M : Module) (b : BlockId) : Module :=
  match (M.block? b).bind Block.terminator? with
  | some ri => if ri.op = .ret then (M.splitBlock b ri.id).1 else M
  | none => M

def splitReturnBlocks (blocks : SetVector BlockId) (M : Module) : Module :=
  blocks.elems.foldl splitReturnBlock M

end Sever

section CloneBlocks

/- A clone takes the number of its original plus `base`, which is above all numbers. -/
def cloneInst (base : Nat) (i : Inst) : Inst := { i with id := base + i.id }

/- `CloneBasicBlock`. The operands still name the originals. -/
def cloneBasicBlock (base : Nat) (b : Block) : Block where
  id := base + b.id
  insts := b.insts.map (cloneInst base)
  hasAddressTaken := false

/- `VMap` after all blocks are cloned. -/
def cloneMap (M : Module) (blocks : List BlockId) : ValueMap where
  val := fun v => match v with
    | .inst i t => if M.definedIn blocks i then some (.inst (M.nextId + i) t) else none
    | _ => none
  block := fun b => if b ∈ blocks then some (M.nextId + b) else none

def appendBlocks (M : Module) (f : FuncId) (bs : List Block) : Module :=
  { M with funcs := M.funcs.map fun g =>
      if g.id = f then { g with blocks := g.blocks ++ bs } else g }

/- The loop over `Blocks` that fills `CloneBlocks` and `VMap`. -/
def cloneBlocks (M : Module) (blocks : List BlockId) (oldFunction : FuncId) : Module :=
  { appendBlocks M oldFunction ((M.region blocks).map (cloneBasicBlock M.nextId)) with
    nextId := 2 * M.nextId }

/- The mapped values are handles that follow `replaceAllUsesWith`. -/
def ValueMap.follow (vm : ValueMap) (src dst : Value) : ValueMap :=
  { vm with val := fun v => (vm.val v).map fun w => if w = src then dst else w }

/- The GEP an access goes through: `isa<GetElementPtrInst>(ptr)`. -/
def accessGEP (M : Module) (access : InstId) : Option Inst := do
  let i ← M.inst? access
  match ← getPointerOperand i with
  | .inst g _ =>
    let gep ← M.inst? g
    if gep.op = .getElementPtr then some gep else none
  | _ => none

/- One round of the flattening loop. A GEP outside the region has no entry in `VMap`. -/
def flattenAccess (st : Module × ValueMap) (access : InstId) : Option (Module × ValueMap) :=
  match accessGEP st.1 access with
  | none => some st
  | some ptr => do
    let cgep ← st.2.val ptr.val
    match cgep with
    | .inst g _ => match st.1.inst? g with
      | some gep =>
        if gep.op = .getElementPtr then
          match ← flattenMultiDimArrayIndices st.1 gep with
          | (M, none) => return (M, st.2)
          | (M, some new) => return (M, st.2.follow gep.val new)
        else return st
      | none => none
    | _ => return st

def flattenAccesses (ce : CodeExtractor) (M : Module) (vm : ValueMap) :
    Option (Module × ValueMap) :=
  if ce.flattenArrayAccesses then
    ce.accesses.bind fun accesses => accesses.foldlM flattenAccess (M, vm)
  else some (M, vm)

end CloneBlocks

section CloneFunction

/- The new instructions stand in front of the terminator. -/
def insertBeforeTerminator (M : Module) (b : BlockId) (is : List Inst) : Module :=
  M.mapIn [b] fun blk =>
    { blk with insts := blk.insts.dropLast ++ is ++ blk.insts.getLast?.toList }

/- `replaceUsesOfWith` on the users whose parent is among the clones. -/
def replaceInClones (M : Module) (clones : List BlockId) (src dst : Value) : Module :=
  M.mapIn clones (Block.mapInsts (Inst.replaceUsesOfWith src dst))

/- Type of the parameter for an output. -/
def outputParamTy (t : Ty) : Ty := if t.isPointerTy then t else t.getUnqual

def paramTypes (aggregateArgs : Bool) (usedInputs outputs : List Value) : List Ty :=
  let ins := usedInputs.map Value.ty
  if aggregateArgs then
    let paramTy := ins ++ outputs.map Value.ty
    if usedInputs.length + outputs.length > 0 then [(Ty.structOf paramTy).getUnqual] else paramTy
  else ins ++ outputs.map fun o => outputParamTy o.ty

/- `arg_begin() + k`, which has to be there when it is used. -/
def argAt (f : FuncId) (params : List Ty) (k : Nat) : Option Value :=
  params[k]?.map fun t => .arg f k t

/- What the rewriting loops share: the extractor, the new function's number and
parameter types, its root block and the clones. -/
structure CloneCtx where
  ce : CodeExtractor
  newFunction : FuncId
  params : List Ty
  root : BlockId
  exit : BlockId
  clones : List BlockId

namespace CloneCtx
variable (c : CloneCtx)

def usedInputs : List Value := (c.ce.inputs.filter c.ce.isInputOnly).elems

def bidirectional : List Value := c.ce.inputs.elems.filter c.ce.isBidirectional

/- `InputToOutputMap[v]`: a missing entry springs up as 0. -/
def outputIndex (v : Value) : Nat := (c.ce.inputToOutputMap.lookup v).getD 0

/- A fresh instruction in front of the terminator of a block. -/
def insertInst (M : Module) (b : BlockId) (op : Opcode) (ty : Ty) (operands : List Value) :
    Value × Module :=
  (.inst M.nextId ty,
    { insertBeforeTerminator M b [⟨M.nextId, op, ty, operands, [], []⟩] with nextId := M.nextId + 1 })

/- The loop over the by-value inputs. -/
def rewriteInput (M : Module) (vi : Value × Nat) : Option Module := do
  if c.ce.aggregateArgs then
    let agg ← argAt c.newFunction c.params 0
    let idx := [.const (.int 32 0), .const (.int 32 vi.2)]
    let (gep, M) := insertInst M c.root .getElementPtr vi.1.ty.getUnqual (agg :: idx)
    let (rewriteVal, M) := insertInst M c.root .load vi.1.ty [gep]
    return replaceInClones M c.clones vi.1 rewriteVal
  else
    let rewriteVal ← argAt c.newFunction c.params vi.2
    return replaceInClones M c.clones vi.1 rewriteVal

/- The output of a bidirectional input and its parameter. -/
def outputOf (v : Value) : Option (Value × Value) := do
  let outv ← c.ce.outputs.elems[c.outputIndex v]?
  let arg ← argAt c.newFunction c.params (c.usedInputs.length + c.outputIndex v)
  return (outv, arg)

/- The loop over the bidirectional inputs. -/
def rewriteBidirectional (M : Module) (v : Value) : Option Module := do
  let (outv, arg) ← c.outputOf v
  if outv.ty.isPointerTy then return replaceInClones M c.clones v arg else
  let (ld, M) := insertInst M c.root .load arg.ty.pointee [arg]
  return replaceInClones M c.clones v ld

/- The initial value of a stack slot. A store must fit its pointer. -/
def storeInit (M : Module) (vi : Value × Nat) (cloneAlloca : Value) : Option Module :=
  if c.ce.stackAllocaInits = [] then some M else
  c.ce.stackAllocaInits[vi.2]?.bind fun init =>
    match init with
    | none => some M
    | some init =>
      if init.ty = vi.1.ty then
        some (insertInst M c.root .store .void [.const init, cloneAlloca]).2
      else none

/- The loop over the stack slots. -/
def rewriteStackAlloca (M : Module) (vi : Value × Nat) : Option Module := do
  let (cloneAlloca, M) := insertInst M c.root .alloca vi.1.ty.getUnqual [.const (.int 32 1)]
  let M ← c.storeInit M vi cloneAlloca
  let (loadClone, M) := insertInst M c.root .load vi.1.ty [cloneAlloca]
  return replaceInClones M c.clones vi.1 loadClone

/- A successor outside the region gives way to the exit block. -/
def divert (i : Inst) : Inst :=
  { i with succs := i.succs.map fun s => if s ∈ c.ce.blocks then s else c.exit }

/- The loop that fills the exit block. -/
def storeOutput (M : Module) (v : Value) : Option Module := do
  let (outv, arg) ← c.outputOf v
  if outv.ty.isPointerTy then return M else
  if arg.ty.pointee = outv.ty then
    return (insertInst M c.exit .store .void [outv, arg]).2
  else none

/- Parameters with the names `setName` asks for. -/
def paramsOf (M : Module) : List Param :=
  if c.ce.aggregateArgs then c.params.map fun t => ⟨"", t⟩ else
  List.zipWith Param.mk
    (c.usedInputs.map M.valueName ++ c.ce.outputs.elems.map fun o => M.valueName o ++ ".out") c.params

end CloneCtx

/- `term->setSuccessor(0, header)` in the root. -/
def setSuccessor (M : Module) (b header : BlockId) : Module :=
  M.mapIn [b] (Block.mapTerminator fun i =>
    { i with succs := i.succs.modifyHead fun _ => header })

def pushBlock (M : Module) (f : FuncId) (b : Block) : Module := appendBlocks M f [b]

/- `cloneFunction`; `cloneHeader` and `clones` are blocks of the old function. -/
def cloneFunction (ce : CodeExtractor) (M : Module) (oldFunction : Function)
    (header cloneHeader : BlockId) (clones : List BlockId) : Option (CloneCtx × Module) := do
  let usedInputs := (ce.inputs.filter ce.isInputOnly).elems
  let n := M.nextId
  let c : CloneCtx :=
    { ce, clones, newFunction := n, root := n + 1, exit := n + 2
      params := paramTypes ce.aggregateArgs usedInputs ce.outputs.elems }
  let newFuncRoot : Block := ⟨n + 1, [Inst.uncondBr (n + 3) header], false⟩
  let newFunction : Function :=
    { id := n, params := c.paramsOf M, isVarArg := ce.allowVarArgs && oldFunction.isVarArg
      blocks := [newFuncRoot] }
  let M := { M with funcs := M.funcs ++ [newFunction], nextId := n + 4 }
  let M ← usedInputs.zipIdx.foldlM c.rewriteInput M
  let M ← c.bidirectional.foldlM c.rewriteBidirectional M
  let M ← ce.stackAllocas.elems.zipIdx.foldlM c.rewriteStackAlloca M
  let M := setSuccessor M c.root cloneHeader
  let ret : Inst := ⟨M.nextId, .ret, .void, [], [], []⟩
  let M := { pushBlock M n ⟨c.exit, [ret], false⟩ with nextId := M.nextId + 1 }
  let M := M.mapIn clones (Block.mapInsts c.divert)
  let M ← c.bidirectional.foldlM c.storeOutput M
  return (c, M)

end CloneFunction

section CloneCodeRegion

/- `RemapInstruction` with `RF_IgnoreMissingLocals`. -/
def remapInstruction (vm : ValueMap) (i : Inst) : Inst :=
  { i with
    operands := i.operands.map fun v => (vm.val v).getD v
    incoming := i.incoming.map fun b => (vm.block b).getD b
    succs := i.succs.map fun b => (vm.block b).getD b }

/- The loop over `newFuncExit` that stops at the terminator. -/
def remapExit (vm : ValueMap) (b : Block) : Block :=
  { b with
    insts := (b.insts.takeWhile fun i => !i.op.isTerminator).map (remapInstruction vm) ++
      b.insts.dropWhile fun i => !i.op.isTerminator }

/- `moveBlocksToFunction`. -/
def moveBlocksToFunction (M : Module) (blocks : List BlockId) (oldFunc newFunction : FuncId) :
    Module :=
  { M with funcs := M.funcs.map fun f =>
      if f.id = newFunction then { f with blocks := f.blocks ++ M.region blocks }
      else if f.id = oldFunc then { f with blocks := f.blocks.filter fun b => b.id ∉ blocks }
      else f }

/- `setIncomingBlock` on the PHIs of the clone of the header. -/
def redirectHeaderPHIs (inNew : BlockId → Bool) (root : BlockId) (b : Block) : Block :=
  { b with
    insts := (b.insts.takeWhile Inst.isPHI).map (fun i =>
        { i with incoming := i.incoming.map fun p => if inNew p then p else root }) ++
      b.insts.dropWhile Inst.isPHI }

/- The varargs check: `vastart` and `vaend` only inside the region. -/
def varArgsOutside (f : Function) (blocks : SetVector BlockId) : Bool :=
  f.blocks.any fun b => b.id ∉ blocks && b.insts.any fun i =>
    i.op.intrinsic? = some .vastart || i.op.intrinsic? = some .vaend

/- `cloneCodeRegion` from the creation of the new root on. -/
def cloneSevered (ce : CodeExtractor) (M : Module) (header : BlockId) (oldFunction : Function) :
    Option (Module × FuncId) := do
  let bs := ce.blocks.elems
  let clones := bs.map fun b => M.nextId + b
  let vm := cloneMap M bs
  let cloneHeader ← vm.block header
  let (M, vm) ← flattenAccesses ce (cloneBlocks M bs oldFunction.id) vm
  let (c, M) ← cloneFunction ce M oldFunction header cloneHeader clones
  let M := M.mapIn [c.exit] (remapExit vm)
  let M := M.mapIn clones (Block.mapInsts (remapInstruction vm))
  let M := moveBlocksToFunction M clones oldFunction.id c.newFunction
  let newFunction ← M.funcs.find? fun f => f.id = c.newFunction
  let M := M.mapIn [cloneHeader]
    (redirectHeaderPHIs (fun b => newFunction.blocks.any fun x => x.id = b) c.root)
  let newFunction ← M.funcs.find? fun f => f.id = c.newFunction
  let M ← eraseAll M (toRemove newFunction)
  return (M, c.newFunction)

/- `cloneCodeRegion`: the extractor and the module afterwards, and the new
function unless the call returns `nullptr`. -/
def cloneCodeRegion (ce : CodeExtractor) (M : Module) :
    Option (CodeExtractor × Module × Option FuncId) := do
  match ce.blocks.elems.head? with
  | none => return (ce, M, none)
  | some header =>
    let oldFunction ← M.parent? header
    if ce.allowVarArgs && oldFunction.isVarArg && varArgsOutside oldFunction ce.blocks then
      return (ce, M, none)
    let (ce, M, header) ← severSplitPHINodes ce M header
    let M := splitReturnBlocks ce.blocks M
    let (M, f) ← cloneSevered ce M header oldFunction
    return (ce, M, some f)

end CloneCodeRegion

end Atrox
