import Atrox.Transforms.CloneRegion

/-!
# Cloning the body of a loop (LoopBodyCloner.hpp)
-/

namespace Atrox
open IR Lib

structure ArgSpec where
  name : String
  direction : ArgDirection
  iteratorDependent : Bool
  deriving DecidableEq

structure FunctionArgSpec where
  func : FuncId
  curLoop : LoopId
  args : List ArgSpec
  deriving DecidableEq

/- The arguments of `cloneLoop` and the options it reads. `selected` is what the
selector appends, `rpo` the order of `LoopBlocksRPO`. `itrInfo` and `IDT` may be
absent; `some none` stands for a loop without iterator info. -/
structure CloneLoopArgs where
  curLoop : LoopId
  selected : List BlockId
  rpo : List BlockId
  itrInfo : Option (Option IteratorInfo)
  getDisposition : Option (Value → Int)
  LBA : LoopBoundsAnalyzer
  AA : AAResults
  skipCalls : Bool
  ignoreAliasing : Bool
  aggregateArgs : Bool
  flattenArrayAccesses : Bool
  storeSuccessInfo : Bool

/- What a call leaves behind; `extracted` are its local variables `ce` and `extractedFunc`. -/
structure CloneLoopResult where
  hasChanged : Bool
  M : Module
  storeInfo : List FunctionArgSpec
  extracted : Option (CodeExtractor × FuncId)

/- The selected blocks in reverse post order. -/
def orderBlocks (rpo selected : List BlockId) : List BlockId := rpo.filter fun b => b ∈ selected

/- `infoOrError` is dereferenced even when it holds an error. -/
def iteratorInfo : Option (Option IteratorInfo) → Option IteratorInfo
  | none => some ⟨fun _ => false, false⟩
  | some infoOrError => infoOrError

/- Number of pure inputs that are iterators. -/
def countIterators (ce : CodeExtractor) (info : IteratorInfo) : Nat :=
  ce.getPureInputs.elems.countP (isIteratorInput info)

/- `argIteratorVariance` of the length of `argDirs` when there is no tracker. -/
def argIteratorVariance (a : CloneLoopArgs) (ce : CodeExtractor) (argDirs : List ArgDirection) :
    List Bool :=
  match a.getDisposition with
  | none => argDirs.map fun _ => false
  | some disp => generateArgIteratorVariance ce.getPureInputs ce.getOutputs disp

/- `specs`, one for each entry of `argDirs`. -/
def argSpecs (params : List Param) (argDirs : List ArgDirection) (variance : List Bool) :
    List ArgSpec :=
  (params.zip (argDirs.zip variance)).map fun p => ⟨p.1.name, p.2.1, p.2.2⟩

/- The extractor of the region, prepared. -/
def preparedExtractor (a : CloneLoopArgs) (M : Module) (info : IteratorInfo) :
    Option CodeExtractor := do
  let blocks := orderBlocks a.rpo a.selected
  let ce ← codeExtractor M blocks (some info) (some a.LBA) none a.aggregateArgs false false
    a.flattenArrayAccesses
  ce.prepare M

/- The part of `cloneLoop` after `cloneCodeRegion` has returned a function. -/
def recordInfo (a : CloneLoopArgs) (storeInfo : List FunctionArgSpec) (ce : CodeExtractor)
    (M : Module) (f : FuncId) : Option CloneLoopResult := do
  let mai : MemoryAccessInfo := ⟨orderBlocks a.rpo a.selected, a.AA, a.ignoreAliasing⟩
  let argDirs ← generateArgDirection M ce.getPureInputs ce.getOutputs (some mai)
  let variance := argIteratorVariance a ce argDirs
  if a.storeSuccessInfo then
    let extractedFunc ← M.funcs.find? fun g => g.id = f
    if extractedFunc.params.length = argDirs.length then
      let specs := argSpecs extractedFunc.params argDirs variance
      return ⟨true, M, storeInfo ++ [⟨f, a.curLoop, specs⟩], some (ce, f)⟩
    else none
  else return ⟨true, M, storeInfo, some (ce, f)⟩

/- `LoopBodyCloner::cloneLoop`. -/
def cloneLoop (a : CloneLoopArgs) (M : Module) (storeInfo : List FunctionArgSpec) :
    Option CloneLoopResult := do
  let blocks := orderBlocks a.rpo a.selected
  if a.selected = [] then return ⟨false, M, storeInfo, none⟩
  if a.skipCalls && (M.regionInsts blocks).any isDetectedCall then
    return ⟨false, M, storeInfo, none⟩
  let info ← iteratorInfo a.itrInfo
  let ce ← preparedExtractor a M info
  if info.valid && countIterators ce info ≠ 1 then return ⟨false, M, storeInfo, none⟩
  let accesses := accessesOf M blocks
  match ← cloneCodeRegion { ce with accesses := some accesses } M with
  | (_, M', none) => return ⟨false, M', storeInfo, none⟩
  | (ce, M', some f) => recordInfo a storeInfo ce M' f

theorem cloneCodeRegion_none {ce ce' : CodeExtractor} {M M' : Module}
    (h : cloneCodeRegion ce M = some (ce', M', none)) : M' = M := by
  unfold cloneCodeRegion at h
  split at h
  · cases h
    rfl
  · obtain ⟨old, -, h⟩ := Option.bind_eq_some_iff.mp h
    split at h
    · cases h
      rfl
    · obtain ⟨_, -, h⟩ := Option.bind_eq_some_iff.mp h
      obtain ⟨_, -, h⟩ := Option.bind_eq_some_iff.mp h
      cases h

/- A run of `cloneLoop` that reaches `cloneCodeRegion` and gets a function. -/
structure LoopExtraction (a : CloneLoopArgs) (M : Module) (storeInfo : List FunctionArgSpec)
    (r : CloneLoopResult) (info : IteratorInfo) (ce ce' : CodeExtractor) (M' : Module)
    (f : FuncId) : Prop where
  selected : a.selected ≠ []
  info_eq : iteratorInfo a.itrInfo = some info
  prepared : preparedExtractor a M info = some ce
  count : info.valid = true → countIterators ce info = 1
  cloned : cloneCodeRegion { ce with accesses := some (accessesOf M (orderBlocks a.rpo a.selected)) }
    M = some (ce', M', some f)
  recorded : recordInfo a storeInfo ce' M' f = some r

/-- `cloneLoop` leaves early with everything as it was, or extracts a function. -/
theorem cloneLoop_cases {a : CloneLoopArgs} {M : Module} {storeInfo : List FunctionArgSpec}
    {r : CloneLoopResult} (h : cloneLoop a M storeInfo = some r) :
    r = ⟨false, M, storeInfo, none⟩ ∨
      ∃ info ce ce' M' f, LoopExtraction a M storeInfo r info ce ce' M' f := by
  unfold cloneLoop at h
  dsimp only at h
  split at h
  · cases h
    exact .inl rfl
  · next hsel =>
    split at h
    · cases h
      exact .inl rfl
    · obtain ⟨info, hinfo, h⟩ := Option.bind_eq_some_iff.mp h
      obtain ⟨ce, hce, h⟩ := Option.bind_eq_some_iff.mp h
      split at h
      · cases h
        exact .inl rfl
      · next hcount =>
        have hone : info.valid = true → countIterators ce info = 1 := by
          intro hv
          by_contra hne
          exact hcount (by simp [hv, hne])
        obtain ⟨⟨ce', M', f⟩, hclone, h⟩ := Option.bind_eq_some_iff.mp h
        cases f with
        | none =>
          cases h
          rw [cloneCodeRegion_none hclone]
          exact .inl rfl
        | some f => exact .inr ⟨info, ce, ce', M', f, hsel, hinfo, hce, hone, hclone, h⟩

/- `for (i = 0; i < n; ++i) s += a[i]`, with the body in a block of its own. -/
def sumLoop : Module where
  funcs := [{ id := 9, params := [⟨"a", .ptr (.int 32) 0⟩, ⟨"n", .int 32⟩], isVarArg := false, blocks :=
    [⟨0, [Inst.uncondBr 20 1], false⟩,
     ⟨1, [⟨10, .phi, .int 32, [.const (.int 32 0), .inst 16 (.int 32)], [0, 3], []⟩,
          ⟨11, .phi, .int 32, [.const (.int 32 0), .inst 15 (.int 32)], [0, 3], []⟩,
          ⟨12, .other 0, .int 1, [.inst 10 (.int 32), .arg 9 1 (.int 32)], [], []⟩,
          ⟨21, .br, .void, [.inst 12 (.int 1)], [], [2, 4]⟩], false⟩,
     ⟨2, [⟨13, .getElementPtr, .ptr (.int 32) 0, [.arg 9 0 (.ptr (.int 32) 0), .inst 10 (.int 32)], [], []⟩,
          ⟨14, .load, .int 32, [.inst 13 (.ptr (.int 32) 0)], [], []⟩,
          ⟨15, .add, .int 32, [.inst 11 (.int 32), .inst 14 (.int 32)], [], []⟩,
          Inst.uncondBr 22 3], false⟩,
     ⟨3, [⟨16, .add, .int 32, [.inst 10 (.int 32), .const (.int 32 1)], [], []⟩,
          Inst.uncondBr 23 1], false⟩,
     ⟨4, [⟨24, .ret, .void, [.inst 11 (.int 32)], [], []⟩], false⟩] }]
  nextId := 30
  valueName := fun v => match v with
    | .arg _ 0 _ => "a"
    | .inst 10 _ => "i"
    | .inst 15 _ => "s.next"
    | _ => ""
  initUsesBlockAddress := fun _ => false

def sumInfo : IteratorInfo := ⟨fun i => i ∈ [10, 12, 16, 21], true⟩

def sumArgs : CloneLoopArgs where
  curLoop := 0
  selected := [2]
  rpo := [1, 2, 3]
  itrInfo := some (some sumInfo)
  getDisposition := none
  LBA := ⟨fun _ => some false, fun _ => false, fun _ => false, fun _ => none⟩
  AA := ⟨fun _ _ => .noModRef, fun _ => .doesNotAccessMemory, fun _ => .doesNotAccessMemory, fun _ => false⟩
  skipCalls := true
  ignoreAliasing := true
  aggregateArgs := false
  flattenArrayAccesses := false
  storeSuccessInfo := true

/- The body becomes a function of the counter, the array and the running sum; the load of `a[i]` counts as a read of
the sum, which is no location. -/
example : (cloneLoop sumArgs sumLoop []).map CloneLoopResult.storeInfo =
    some [⟨60, 0, [⟨"i", .inbound, false⟩, ⟨"a", .both, false⟩, ⟨"s.next.out", .both, false⟩]⟩] := by
  decide

end Atrox
