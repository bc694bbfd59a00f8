import Atrox.IR.Syntax

/-!
# Memory accesses of a region (MemoryAccessInfo.cpp)

What alias analysis answers is a parameter. `none` stands for `llvm_unreachable`.
-/

namespace Atrox
open IR

inductive ModRefInfo where
  | noModRef
  | ref
  | mod
  | modRef
  deriving DecidableEq

def ModRefInfo.isRefSet : ModRefInfo → Bool
  | .ref | .modRef => true
  | _ => false

def ModRefInfo.isModSet : ModRefInfo → Bool
  | .mod | .modRef => true
  | _ => false

/- `FunctionModRefBehavior`: which memory a function may access (all three bits are `FMRL_Anywhere`) and how. -/
structure FMRB where
  argumentPointees : Bool
  inaccessibleMem : Bool
  elsewhere : Bool
  modRef : ModRefInfo
  deriving DecidableEq

/- The combinations that have a name; alias analyses intersect them, so others occur as well. -/
namespace FMRB

@[match_pattern] def unknownModRefBehavior : FMRB := ⟨true, true, true, .modRef⟩
@[match_pattern] def doesNotAccessMemory : FMRB := ⟨false, false, false, .noModRef⟩
@[match_pattern] def doesNotReadMemory : FMRB := ⟨true, true, true, .mod⟩
@[match_pattern] def onlyAccessesInaccessibleMem : FMRB := ⟨false, true, false, .modRef⟩
@[match_pattern] def onlyAccessesInaccessibleOrArgMem : FMRB := ⟨true, true, false, .modRef⟩
@[match_pattern] def onlyReadsMemory : FMRB := ⟨true, true, true, .ref⟩
@[match_pattern] def onlyReadsArgumentPointees : FMRB := ⟨true, false, false, .ref⟩
@[match_pattern] def onlyAccessesArgumentPointees : FMRB := ⟨true, false, false, .modRef⟩

end FMRB

/- `MemoryLocation`: a pointer, the type of what is accessed through it (`none` is `UnknownSize`) and the access whose
`AATags` it has. -/
structure MemoryLocation where
  ptr : Value
  size : Option Ty
  aaTags : Option InstId
  deriving DecidableEq

namespace MemoryLocation

/- `MemoryLocation::getOrNone`: what the instruction itself accesses. -/
def getOrNone (i : Inst) : Option MemoryLocation :=
  match i.op with
  | .load => i.operands[0]?.map fun p => ⟨p, some i.ty, some i.id⟩
  | .store => i.operands[1]?.map fun p => ⟨p, i.operands[0]?.map Value.ty, some i.id⟩
  | .vaArg => i.operands[0]?.map fun p => ⟨p, none, some i.id⟩
  | .atomicCmpXchg | .atomicRMW => i.operands[0]?.map fun p => ⟨p, i.operands[1]?.map Value.ty, some i.id⟩
  | _ => none

/- The memory a pointer points to. -/
def behind (v : Value) : MemoryLocation := ⟨v, none, none⟩

end MemoryLocation

/- What alias analysis answers: for an instruction and a location, for a called function, for a call, and whether an
atomic access is stronger than unordered. -/
structure AAResults where
  getModRefInfoAt : Inst → MemoryLocation → ModRefInfo
  getModRefBehavior : Callee → FMRB
  getCallModRefBehavior : Inst → FMRB
  isOrdered : Inst → Bool

/- `AAResults::getModRefInfo(I, OptLoc)`. Without a location the opcode answers, for a call its behaviour. -/
def AAResults.getModRefInfo (AA : AAResults) (i : Inst) : Option MemoryLocation → ModRefInfo
  | some loc => AA.getModRefInfoAt i loc
  | none =>
    match i.op with
    | .call _ _ | .invoke => (AA.getCallModRefBehavior i).modRef
    | .load => if AA.isOrdered i then .modRef else .ref
    | .store => if AA.isOrdered i then .modRef else .mod
    | .fence | .vaArg | .atomicCmpXchg | .atomicRMW | .catchPad | .catchRet => .modRef
    | _ => .noModRef

/- `Blocks` and `AA`, with the option `AtroxIgnoreAliasing`. -/
structure MemoryAccessInfo where
  blocks : List BlockId
  AA : AAResults
  ignoreAliasing : Bool

/- Some argument of the call is the pointer `v`. -/
def passesPointer (v : Value) (ci : Inst) : Bool :=
  ci.operands.dropLast.any fun a => a.ty.isPointerTy && a = v

namespace MemoryAccessInfo
variable (mai : MemoryAccessInfo)

/- A call without a called function hands a null pointer to `getModRefBehavior`. -/
def isReadByCall (v : Value) (ci : Inst) : Option Bool :=
  match ci.op with
  | .call callee readNone =>
    if readNone then some false else
    callee.bind fun calledFunction => match mai.AA.getModRefBehavior calledFunction with
    | .unknownModRefBehavior => none
    | .doesNotAccessMemory => some false
    | .doesNotReadMemory => some false
    | .onlyAccessesInaccessibleMem | .onlyAccessesInaccessibleOrArgMem => none
    | .onlyReadsMemory => some true
    | .onlyReadsArgumentPointees | .onlyAccessesArgumentPointees => some (passesPointer v ci)
    | _ => some true
  | _ => some false

def isWrittenByCall (v : Value) (ci : Inst) : Option Bool :=
  match ci.op with
  | .call callee readNone =>
    if readNone then some false else
    callee.bind fun calledFunction => match mai.AA.getModRefBehavior calledFunction with
    | .unknownModRefBehavior => none
    | .doesNotAccessMemory => some false
    | .doesNotReadMemory => some false
    | .onlyAccessesInaccessibleMem | .onlyAccessesInaccessibleOrArgMem => none
    | .onlyReadsMemory => some false
    | .onlyReadsArgumentPointees => some false
    | .onlyAccessesArgumentPointees => some (passesPointer v ci)
    | _ => some true
  | _ => some false

/- The scan of the blocks up to the first instruction with the property. -/
def anyInst (p : Inst → Option Bool) : List Inst → Option Bool
  | [] => some false
  | i :: is => (p i).bind fun b => if b then some true else anyInst p is

/- `getModRefInfo(&i, MemoryLocation::getOrNone(inst))`: the question is about what `inst` accesses. -/
def askedAt (inst : Option Inst) (i : Inst) : ModRefInfo :=
  mai.AA.getModRefInfo i (inst.bind MemoryLocation.getOrNone)

def readsAt (inst : Option Inst) (v : Value) (i : Inst) : Option Bool :=
  let mri := mai.askedAt inst i
  if mri.isRefSet && !mri.isModSet then some true else mai.isReadByCall v i

def writesAt (inst : Option Inst) (v : Value) (i : Inst) : Option Bool :=
  let mri := mai.askedAt inst i
  if mri.isModSet then some true else mai.isWrittenByCall v i

def isRead (M : Module) (v : Value) : Option Bool :=
  match v with
  | .inst j _ => anyInst (mai.readsAt (M.inst? j) v) (M.regionInsts mai.blocks)
  | .arg _ _ _ | .global _ _ _ => some mai.ignoreAliasing
  | _ => none

def isWrite (M : Module) (v : Value) : Option Bool :=
  match v with
  | .inst j _ => anyInst (mai.writesAt (M.inst? j) v) (M.regionInsts mai.blocks)
  | .arg _ _ _ | .global _ _ _ => some mai.ignoreAliasing
  | _ => none

/- A scan that ends without a hit has seen every instruction. -/
theorem anyInst_eq_true (p : Inst → Option Bool) (is : List Inst) (b : Bool)
    (h : anyInst p is = some b) : b = true ↔ ∃ i ∈ is, p i = some true := by
  induction is with
  | nil =>
    have hb : b = false := (Option.some.inj h).symm
    simp [hb]
  | cons i is ih =>
    obtain ⟨c, hc, hrest⟩ := Option.bind_eq_some_iff.mp h
    cases c with
    | true =>
      have hb : b = true := (Option.some.inj hrest).symm
      simp [hb, hc]
    | false =>
      rw [ih hrest]
      simp [hc]

/- The instruction counts as a read of `v`, defined by `inst`: it reads and does not modify what `inst` accesses, or is
a call that reads. -/
def CountsAsRead (inst : Option Inst) (v : Value) (i : Inst) : Prop :=
  ((mai.askedAt inst i).isRefSet = true ∧ (mai.askedAt inst i).isModSet = false) ∨ mai.isReadByCall v i = some true

def CountsAsWrite (inst : Option Inst) (v : Value) (i : Inst) : Prop :=
  (mai.askedAt inst i).isModSet = true ∨ mai.isWrittenByCall v i = some true

theorem readsAt_iff (inst : Option Inst) (v : Value) (i : Inst) :
    mai.readsAt inst v i = some true ↔ mai.CountsAsRead inst v i := by
  unfold readsAt CountsAsRead
  dsimp only
  split
  · next h =>
    rw [Bool.and_eq_true, Bool.not_eq_true'] at h
    exact ⟨fun _ => .inl h, fun _ => rfl⟩
  · next h =>
    rw [Bool.and_eq_true, Bool.not_eq_true'] at h
    exact ⟨.inr, fun hc => hc.resolve_left h⟩

theorem writesAt_iff (inst : Option Inst) (v : Value) (i : Inst) :
    mai.writesAt inst v i = some true ↔ mai.CountsAsWrite inst v i := by
  unfold writesAt CountsAsWrite
  dsimp only
  split
  · next h => exact ⟨fun _ => .inl h, fun _ => rfl⟩
  · next h => exact ⟨.inr, fun hc => hc.resolve_left h⟩

/- What the two queries look for: an instruction that counts, or the option where they do not look. -/
def ReadFound (M : Module) (v : Value) : Prop :=
  match v with
  | .inst j _ => ∃ i ∈ M.regionInsts mai.blocks, mai.CountsAsRead (M.inst? j) v i
  | _ => mai.ignoreAliasing = true

def WriteFound (M : Module) (v : Value) : Prop :=
  match v with
  | .inst j _ => ∃ i ∈ M.regionInsts mai.blocks, mai.CountsAsWrite (M.inst? j) v i
  | _ => mai.ignoreAliasing = true

variable {mai} {M : Module} {v : Value} {b : Bool}

theorem isRead_iff (h : mai.isRead M v = some b) : b = true ↔ mai.ReadFound M v := by
  cases v with
  | inst j t =>
    rw [anyInst_eq_true _ _ b h]
    exact exists_congr fun i => and_congr_right fun _ => mai.readsAt_iff _ _ i
  | arg f k t =>
    cases h
    exact Iff.rfl
  | global g t a =>
    cases h
    exact Iff.rfl
  | const c => cases h
  | func f => cases h

theorem isWrite_iff (h : mai.isWrite M v = some b) : b = true ↔ mai.WriteFound M v := by
  cases v with
  | inst j t =>
    rw [anyInst_eq_true _ _ b h]
    exact exists_congr fun i => and_congr_right fun _ => mai.writesAt_iff _ _ i
  | arg f k t =>
    cases h
    exact Iff.rfl
  | global g t a =>
    cases h
    exact Iff.rfl
  | const c => cases h
  | func f => cases h

end MemoryAccessInfo
end Atrox
