import Atrox.IR.Syntax

/-!
# Loops and `LoopInfo`

Loops in preorder, each with its parent loop, and the map from a block to its
innermost loop. `addBasicBlockToLoop` is how `SplitBlock` keeps them up to date.
-/

namespace Atrox.IR

abbrev LoopId := Nat

/-- A loop. `parent` is the loop it is nested in. -/
structure Loop where
  header : BlockId
  blocks : List BlockId
  parent : Option LoopId
  deriving DecidableEq

/-- `llvm::LoopInfo`. A loop is its position in the preorder; `bbMap` sends a
block to its innermost loop. -/
structure LoopInfo where
  loops : List Loop
  bbMap : BlockId → Option LoopId

namespace LoopInfo

/-- The loop, its parent, the parent of that, for as many levels as `fuel`. -/
def ancestors (loops : List Loop) : Nat → LoopId → List LoopId
  | 0, _ => []
  | fuel + 1, l => l :: match (loops[l]?).bind Loop.parent with
    | none => []
    | some p => ancestors loops fuel p

/-- The loop and all loops around it. -/
def enclosing (LI : LoopInfo) (l : LoopId) : List LoopId :=
  ancestors LI.loops LI.loops.length l

/-- Blocks of a loop. -/
def blocksOf (LI : LoopInfo) (l : LoopId) : List BlockId :=
  ((LI.loops[l]?).map Loop.blocks).getD []

/-- `getLoopFor`: the innermost loop of a block. -/
def getLoopFor (LI : LoopInfo) (b : BlockId) : Option LoopId := LI.bbMap b

/-- `isLoopHeader`: the block heads its innermost loop. -/
def isLoopHeader (LI : LoopInfo) (b : BlockId) : Bool :=
  match LI.getLoopFor b with
  | none => false
  | some l => (LI.loops[l]?).map Loop.header = some b

/-- `getLoopDepth` of a block. -/
def loopDepth (LI : LoopInfo) (b : BlockId) : Nat :=
  match LI.getLoopFor b with
  | none => 0
  | some l => (LI.enclosing l).length

/-- `Loop::addBasicBlockToLoop`: the block enters the loop and every loop around it. -/
def addBasicBlockToLoop (LI : LoopInfo) (new : BlockId) (l : LoopId) : LoopInfo where
  loops := LI.loops.mapIdx fun i L =>
    if i ∈ LI.enclosing l then { L with blocks := L.blocks ++ [new] } else L
  bbMap := fun b => if b = new then some l else LI.bbMap b

/-- What `SplitBlock` does with its `LoopInfo`. -/
def splitUpdate (LI : LoopInfo) (old new : BlockId) : LoopInfo :=
  match LI.getLoopFor old with
  | none => LI
  | some l => LI.addBasicBlockToLoop new l

/-- The blocks of a loop are those whose innermost loop it encloses. -/
structure WF (LI : LoopInfo) : Prop where
  mem_blocksOf : ∀ l < LI.loops.length, ∀ b,
    b ∈ LI.blocksOf l ↔ ∃ m, LI.bbMap b = some m ∧ l ∈ LI.enclosing m
  blocks_nodup : ∀ l < LI.loops.length, (LI.blocksOf l).Nodup

theorem ancestors_congr {ls ls' : List Loop} (h : ∀ i : Nat, (ls[i]?).bind Loop.parent =
    (ls'[i]?).bind Loop.parent) (fuel : Nat) (l : LoopId) :
    ancestors ls fuel l = ancestors ls' fuel l := by
  induction fuel generalizing l with
  | zero => rfl
  | succ fuel ih =>
    simp only [ancestors, h l]
    cases (ls'[l]?).bind Loop.parent with
    | none => rfl
    | some p => simp only [ih p]

section AddBlock
variable (LI : LoopInfo) (new : BlockId) (l : LoopId)

theorem addBlock_getElem? (i : LoopId) :
    (LI.addBasicBlockToLoop new l).loops[i]? = (LI.loops[i]?).map fun L =>
      if i ∈ LI.enclosing l then { L with blocks := L.blocks ++ [new] } else L := by
  simp only [addBasicBlockToLoop, List.getElem?_mapIdx]

@[simp] theorem addBlock_bbMap (b : BlockId) :
    (LI.addBasicBlockToLoop new l).bbMap b = if b = new then some l else LI.bbMap b := rfl

@[simp] theorem addBlock_length :
    (LI.addBasicBlockToLoop new l).loops.length = LI.loops.length := by
  simp only [addBasicBlockToLoop, List.length_mapIdx]

@[simp] theorem addBlock_enclosing (m : LoopId) :
    (LI.addBasicBlockToLoop new l).enclosing m = LI.enclosing m := by
  simp only [enclosing, addBlock_length]
  apply ancestors_congr
  intro i
  rw [addBlock_getElem?]
  cases LI.loops[i]? with
  | none => rfl
  | some L =>
    simp only [Option.map_some, Option.bind_some]
    split <;> rfl

theorem addBlock_blocksOf (i : LoopId) (hi : i < LI.loops.length) :
    (LI.addBasicBlockToLoop new l).blocksOf i =
      if i ∈ LI.enclosing l then LI.blocksOf i ++ [new] else LI.blocksOf i := by
  simp only [blocksOf, addBlock_getElem?, List.getElem?_eq_getElem hi, Option.map_some,
    Option.getD_some]
  split <;> rfl

end AddBlock

@[simp] theorem splitUpdate_length (LI : LoopInfo) (old new : BlockId) :
    (LI.splitUpdate old new).loops.length = LI.loops.length := by
  unfold splitUpdate
  split
  · rfl
  · exact addBlock_length ..

/-- The new block joins exactly the loops of the old one. -/
theorem splitUpdate_blocksOf {LI : LoopInfo} (hLI : LI.WF) (old new : BlockId) {i : LoopId}
    (hi : i < LI.loops.length) (b : BlockId) :
    b ∈ (LI.splitUpdate old new).blocksOf i ↔
      b ∈ LI.blocksOf i ∨ (b = new ∧ old ∈ LI.blocksOf i) := by
  unfold splitUpdate getLoopFor
  rw [hLI.mem_blocksOf i hi old]
  cases ho : LI.bbMap old with
  | none => simp
  | some l =>
    simp only [addBlock_blocksOf LI new l i hi, Option.some.injEq, exists_eq_left']
    split <;> simp [*]

theorem splitUpdate_wf {LI : LoopInfo} (hLI : LI.WF) (old new : BlockId)
    (hnew : ∀ i < LI.loops.length, new ∉ LI.blocksOf i) : (LI.splitUpdate old new).WF := by
  constructor
  · intro i hi b
    rw [splitUpdate_length] at hi
    rw [splitUpdate_blocksOf hLI old new hi b]
    have hbn := hnew i hi
    rw [hLI.mem_blocksOf i hi] at hbn ⊢
    rw [hLI.mem_blocksOf i hi]
    unfold splitUpdate getLoopFor
    cases ho : LI.bbMap old with
    | none => simp
    | some l =>
      simp only [addBlock_enclosing, addBlock_bbMap]
      by_cases hb : b = new
      · subst hb
        simp [hbn]
      · simp [hb]
  · intro i hi
    rw [splitUpdate_length] at hi
    have hnd := hLI.blocks_nodup i hi
    unfold splitUpdate getLoopFor
    cases ho : LI.bbMap old with
    | none => exact hnd
    | some l =>
      simp only [addBlock_blocksOf LI new l i hi]
      split
      · exact hnd.append (List.nodup_singleton _) (by simpa using hnew i hi)
      · exact hnd

end LoopInfo

end Atrox.IR
