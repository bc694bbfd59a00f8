import Mathlib.Data.List.AList
import Atrox.IR.Edit
import Atrox.IR.LoopForest
import Atrox.Lib.Folds
import Atrox.Lib.SetVector

/-!
# Induction variables of a nest (LoopBoundsAnalyzer.cpp)

`analyze` fills the map of the nest around a loop, `evaluate` puts numbers into it. `none`
stands for a failed assertion or a null dereference.
-/

namespace Atrox
open IR Lib

/- `SCEVAddRecExpr`, as far as it is read. -/
structure SCEVAddRecExpr (S : Type) where
  start : S
  step : S
  isAffine : Bool

/- The answers of `ScalarEvolution` on its expressions `S`, `addRec` and `constant` being
`dyn_cast`s. `isCanonical` is the test of `Loop::getCanonicalInductionVariable` on a PHI of the header. -/
structure ScalarEvolution (S : Type) where
  getSCEV : Value → S
  addRec : S → Option (SCEVAddRecExpr S)
  constant : S → Option Nat
  evaluateAtIteration : S → Nat → S
  getSCEVAtScope : S → LoopId → S
  getSmallConstantMaxTripCount : LoopId → Nat
  isCanonical : LoopId → Inst → Bool

/- `LoopIterationSpaceInfo`; null pointers are `none`. -/
structure LoopIterationSpace (S : Type) where
  inductionVariable : Option Value
  start : Option S
  stop : Option S
  tripCount : Nat

abbrev BoundsMap (S : Type) := AList fun _ : LoopId => LoopIterationSpace S

/- `TopL` and `LoopBoundsMap`. The order of the map is that of addresses: no two loops share an
induction variable, so no look-up depends on it. -/
structure LoopBounds (S : Type) where
  topL : Option LoopId
  loopBoundsMap : BoundsMap S

section Analyze
variable {S : Type} (LI : LoopInfo) (M : Module) (SE : ScalarEvolution S)

/- `TopL` of an analyzer that has not seen a loop. -/
def LoopBounds.empty : LoopBounds S := ⟨none, ∅⟩

def LoopIterationSpace.empty : LoopIterationSpace S := ⟨none, none, none, 0⟩

/- The loop over the PHIs in `GetInductionVariable`. -/
def firstAddRec : List Inst → Option Inst
  | [] => none
  | phi :: phis =>
    if !phi.ty.isIntegerTy && !phi.ty.isFloatingPointTy && !phi.ty.isPointerTy then none else
    match SE.addRec (SE.getSCEV phi.val) with
    | none => firstAddRec phis
    | some r => if r.isAffine && (SE.constant r.step).isSome then some phi else firstAddRec phis

def getInductionVariable (l : LoopId) : Option Inst :=
  match (LI.headerOf l).bind M.block? with
  | none => none
  | some header =>
    match header.phis.find? (SE.isCanonical l) with
    | some phi => some phi
    | none =>
      if (LI.getLoopLatch M l).isNone || (LI.getLoopPredecessor M l).isNone then none else
      firstAddRec SE header.phis

/- What `analyze` enters for a loop of the nest. -/
def iterationSpace (l : LoopId) : LoopIterationSpace S :=
  match getInductionVariable LI M SE l with
  | none => .empty
  | some ind => match SE.addRec (SE.getSCEV ind.val) with
    | none => .empty
    | some indAR => ⟨some ind.val, some indAR.start, some indAR.start, SE.getSmallConstantMaxTripCount l⟩

/- `analyze`: nothing happens when the nest is the one of the last call. -/
def LoopBounds.analyze (lba : LoopBounds S) (curL : LoopId) : Option (LoopBounds S) :=
  if (LI.headerOf curL).bind LI.getLoopFor = some curL then
    let topL := LI.topLoop curL
    if lba.topL = some topL then some lba else
    let workList := LI.getLoopsInPreorder.filter (LI.containsHeader topL)
    some ⟨some topL, workList.foldl (fun m e => m.insert e (iterationSpace LI M SE e)) ∅⟩
  else none

end Analyze

section Evaluate
variable {S : Type} (LI : LoopInfo) (SE : ScalarEvolution S)

/- `LoopBoundsMap[l]`: a missing entry springs up empty. -/
def BoundsMap.at (m : BoundsMap S) (l : LoopId) : LoopIterationSpace S := (m.lookup l).getD .empty

/- An `SCEVAddRecExpr` gives way to its value at an iteration, anything else stays. -/
def evaluateAddRec (n : Nat) (s : S) : S :=
  if (SE.addRec s).isSome then SE.evaluateAtIteration s n else s

/- The expression seen from the inner loop gives way to its value there, when it is an
`SCEVAddRecExpr`. -/
def evaluateInScope (n : Nat) (innerL : LoopId) (s : S) : S :=
  let t := SE.getSCEVAtScope s innerL
  if (SE.addRec t).isSome then SE.evaluateAtIteration t n else s

/- The round of an outer loop before the loop over the inner ones. -/
def evaluateOuter (start val : Nat) (m : BoundsMap S) (outerL : LoopId) : BoundsMap S :=
  let info := m.at outerL
  m.insert outerL { info with
    start := info.start.map (evaluateAddRec SE start)
    stop := info.stop.map (evaluateAddRec SE val) }

/- `getSCEVAtScope` does not take a null pointer. -/
def evaluateInner (start val : Nat) (m : BoundsMap S) (innerL : LoopId) : Option (BoundsMap S) := do
  let info := m.at innerL
  let startS ← info.start
  let stopS ← info.stop
  return m.insert innerL { info with
    start := some (evaluateInScope SE start innerL startS)
    stop := some (evaluateInScope SE val innerL stopS) }

/- The outer loops from one on; behind each follow the loops nested in it. -/
def evaluateNest (start val : Nat) (targetLoop : LoopId) : List LoopId → BoundsMap S → Option (BoundsMap S)
  | [], m => some m
  | outerL :: workList, m => do
    let inner := workList.takeWhile fun innerL => LI.depthOf outerL < LI.depthOf innerL
    let m ← inner.foldlM (evaluateInner SE start val) (evaluateOuter SE start val m outerL)
    if targetLoop = outerL then return m else evaluateNest start val targetLoop workList m

/- `evaluate` with `ShouldCalcMaxBounds`, under which the target loop is evaluated as the others are. -/
def LoopBounds.evaluate (lba : LoopBounds S) (start stop : Nat) (targetLoop : LoopId) : Option (LoopBounds S) :=
  match lba.topL with
  | none => some lba
  | some topL =>
    let workList := LI.getLoopsInReverseSiblingPreorder.filter (LI.containsHeader topL)
    (evaluateNest LI SE start stop targetLoop workList lba.loopBoundsMap).map fun m => { lba with loopBoundsMap := m }

end Evaluate

section Queries
variable {S : Type} (LI : LoopInfo) (M : Module)

/- `isOuterLoopOf`: the loops above the query loop. -/
def isOuterLoopOf (possibleOuterLoop queryLoop : LoopId) : Bool := possibleOuterLoop ∈ (LI.enclosing queryLoop).tail

/- The entry that the loops over `LoopBoundsMap` stop at. -/
def BoundsMap.find (m : BoundsMap S) (v : Value) : Option (LoopId × LoopIterationSpace S) :=
  (m.entries.find? fun e => e.2.inductionVariable = some v).map fun e => (e.1, e.2)

def LoopBounds.isValueOuterLoopInductionVariable (lba : LoopBounds S) (v : Value) (l : LoopId) : Bool :=
  (lba.loopBoundsMap.find v).any fun e => isOuterLoopOf LI e.1 l

def LoopBounds.isValueInnerLoopInductionVariable (lba : LoopBounds S) (v : Value) (l : LoopId) : Bool :=
  (lba.loopBoundsMap.find v).any fun e => isOuterLoopOf LI l e.1

/- `getInfo` of an induction variable. -/
def LoopBounds.getInfo (lba : LoopBounds S) (indVar : Value) : Option (LoopIterationSpace S) :=
  (lba.loopBoundsMap.find indVar).map Prod.snd

/- `GetBackedgeCondition`, with its assertions or without them. An unconditional branch has no
condition to return. -/
def getBackedgeCondition (asserts : Bool) (l : LoopId) : Option (Option Value) :=
  match LI.getExitingBlock M l with
  | none => if asserts then none else some none
  | some exiting =>
    match (M.block? exiting).bind Block.terminator? with
    | none => none
    | some bi => if bi.op = .br then (bi.operands.head?).map some else some none

/- The sub-loops of the sub-loops are appended to a copy of the sub-loops while that is walked. The copy
has no room to spare, so the first `push_back` frees the elements the walk is at: to read one more of
them is undefined. -/
def appendSubLoops (freed : Bool) : List LoopId → List LoopId → Option (List LoopId)
  | loops, [] => some loops
  | loops, e :: es =>
    if freed then none else appendSubLoops (LI.getSubLoops e ≠ []) (loops ++ LI.getSubLoops e) es

/- The loops whose conditions are looked at. -/
def conditionLoops (l : LoopId) : Option (List LoopId) :=
  (appendSubLoops LI false (LI.getSubLoops l) (LI.getSubLoops l)).map fun loops => loops ++ [l]

/- One round of the loop over the loops: the condition is entered when the value is an operand of it. -/
def usedInCondition (asserts : Bool) (v : Value) (conditions : SetVector InstId) (e : LoopId) : Option (SetVector InstId) :=
  (getBackedgeCondition LI M asserts e).map fun cond =>
    match cond with
    | some (.inst i _) => if (M.inst? i).any fun be => v ∈ be.operands then conditions.insert i else conditions
    | _ => conditions

/- `isValueUsedInLoopNestConditions`: the conditions entered, none of them when it returns false. -/
def isValueUsedInLoopNestConditions (asserts : Bool) (v : Value) (l : LoopId) : Option (SetVector InstId) :=
  (conditionLoops LI l).bind fun loops => loops.foldlM (usedInCondition LI M asserts v) ∅

def isValueUsedOnlyInLoopNestConditions (asserts : Bool) (v : Value) (l : LoopId) (interesting : SetVector BlockId) :
    Option Bool :=
  (isValueUsedInLoopNestConditions LI M asserts v l).map fun cond =>
    cond.elems ≠ [] && (M.users v).all fun i => !M.definedIn interesting.elems i.id || i.id ∈ cond

end Queries

end Atrox
