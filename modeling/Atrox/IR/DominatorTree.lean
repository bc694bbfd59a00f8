import Mathlib.Data.List.AList
import Atrox.IR.Syntax
import Atrox.Lib.Dominators

/-!
# Dominator trees

`llvm::DominatorTree` of a function as far as it is updated when a block is split: the nodes are the blocks that
are reached from the entry, each with its immediate dominator.
-/

namespace Atrox.IR
open Lib

/-- The root is the entry block; every other node stands under its immediate dominator. -/
structure DominatorTree where
  root : BlockId
  idom : AList fun _ : BlockId => BlockId

namespace DominatorTree

/-- `getNode` is not null; `isReachableFromEntry` asks the same. -/
def getNode (DT : DominatorTree) (b : BlockId) : Bool := b = DT.root || b ∈ DT.idom

/-- The children of a node. -/
def children (DT : DominatorTree) (b : BlockId) : List BlockId := DT.idom.keys.filter fun c => DT.idom.lookup c = some b

def addNewBlock (DT : DominatorTree) (b domBB : BlockId) : DominatorTree := { DT with idom := DT.idom.insert b domBB }

def changeImmediateDominator (DT : DominatorTree) (b newIDom : BlockId) : DominatorTree :=
  { DT with idom := DT.idom.insert b newIDom }

/-- The old block dominates the new one, the new one all other nodes that the old one dominates. -/
def insertBelow (DT : DominatorTree) (old new : BlockId) : DominatorTree :=
  (DT.children old).foldl (fun T c => T.changeImmediateDominator c new) (DT.addNewBlock new old)

/-- What `SplitBlock` does to the tree. Blocks that are not reached have no node. -/
def splitUpdate (DT : DominatorTree) (old new : BlockId) : DominatorTree :=
  if DT.getNode old then DT.insertBelow old new else DT

/-- The tree tells what is reached along `E`, and what dominates it. -/
structure Right (DT : DominatorTree) (E : BlockId → BlockId → Prop) : Prop where
  root : DT.idom.lookup DT.root = none
  node : ∀ b, DT.getNode b = true ↔ Reaches E DT.root b
  idom : ∀ b d, DT.idom.lookup b = some d → Immediate E DT.root d b

section Update
variable (DT : DominatorTree) (old new : BlockId)

theorem getNode_iff (b : BlockId) : DT.getNode b = true ↔ b = DT.root ∨ (DT.idom.lookup b).isSome = true := by
  simp only [getNode, Bool.or_eq_true, decide_eq_true_eq, AList.lookup_isSome]

theorem mem_children (b c : BlockId) : c ∈ DT.children b ↔ DT.idom.lookup c = some b := by
  unfold children
  rw [List.mem_filter, decide_eq_true_eq]
  refine and_iff_right_of_imp fun h => ?_
  have hsome : (DT.idom.lookup c).isSome = true := by rw [h]; rfl
  exact AList.mem_keys.mpr (AList.lookup_isSome.mp hsome)

theorem changeAll_root (cs : List BlockId) :
    (cs.foldl (fun T c => T.changeImmediateDominator c new) DT).root = DT.root := by
  induction cs generalizing DT with
  | nil => rfl
  | cons c cs ih => exact ih (DT.changeImmediateDominator c new)

theorem changeAll_lookup (cs : List BlockId) (b : BlockId) :
    (cs.foldl (fun T c => T.changeImmediateDominator c new) DT).idom.lookup b =
      if b ∈ cs then some new else DT.idom.lookup b := by
  induction cs generalizing DT with
  | nil => rfl
  | cons c cs ih =>
    rw [List.foldl_cons, ih]
    by_cases hc : b = c
    · subst hc
      simp [changeImmediateDominator]
    · simp [changeImmediateDominator, hc, AList.lookup_insert_ne hc]

@[simp] theorem insertBelow_root : (DT.insertBelow old new).root = DT.root := changeAll_root _ _ _

theorem insertBelow_lookup (hnew : DT.idom.lookup new = none) (b : BlockId) :
    (DT.insertBelow old new).idom.lookup b =
      if b = new then some old else if DT.idom.lookup b = some old then some new else DT.idom.lookup b := by
  rw [insertBelow, changeAll_lookup]
  by_cases hb : b = new
  · subst hb
    simp [mem_children, hnew, addNewBlock]
  · simp [mem_children, hb, addNewBlock, AList.lookup_insert_ne hb]

theorem insertBelow_getNode (hnew : DT.idom.lookup new = none) (b : BlockId) :
    (DT.insertBelow old new).getNode b = true ↔ DT.getNode b = true ∨ b = new := by
  rw [getNode_iff, getNode_iff, insertBelow_root, insertBelow_lookup DT old new hnew]
  split
  · next hb => exact iff_of_true (.inr rfl) (.inr hb)
  · next hb =>
    rw [or_iff_left hb]
    split
    · next he => rw [he]; rfl
    · rfl

@[simp] theorem splitUpdate_root : (DT.splitUpdate old new).root = DT.root := by
  unfold splitUpdate
  split
  · exact insertBelow_root ..
  · rfl

end Update

section Right
variable {DT : DominatorTree} {E F : BlockId → BlockId → Prop} {old new : BlockId}

theorem Right.of_sameWays (h : DT.Right E) (hs : SameWays E F DT.root) : DT.Right F where
  root := h.root
  node := fun b => (h.node b).trans (hs.reaches b)
  idom := fun b d hb => hs.immediate (h.idom b d hb)

variable (h : DT.Right E) (hcut : NodeSplit E F old new) (hin : ∀ a, ¬E a new) (hroot : DT.root ≠ new)
include h hin hroot

/-- A node that nothing leads to is not in the tree. -/
theorem Right.lookup_new : DT.idom.lookup new = none := by
  refine Option.not_isSome_iff_eq_none.mp fun hsome => ?_
  exact not_reaches hroot hin ((h.node new).mp ((getNode_iff DT new).mpr (.inr hsome)))

include hcut

theorem Right.insertBelow (hne : old ≠ new) (hold : DT.getNode old = true) : (DT.insertBelow old new).Right F := by
  have hlookup := insertBelow_lookup DT old new (h.lookup_new hin hroot)
  refine ⟨?_, fun b => ?_, fun b d hb => ?_⟩
  · rw [insertBelow_root, hlookup, if_neg hroot, h.root, if_neg (Option.some_ne_none old).symm]
  · rw [insertBelow_root, insertBelow_getNode DT old new (h.lookup_new hin hroot)]
    by_cases hb : b = new
    · subst hb
      rw [hcut.reaches_new hin hroot, ← h.node]
      exact iff_of_true (.inr rfl) hold
    · rw [or_iff_left hb, hcut.reaches_old hin hroot hb, h.node]
  · rw [insertBelow_root]
    rw [hlookup] at hb
    split at hb
    · next hbn =>
      cases hb
      exact hbn ▸ hcut.immediate_new hin hroot hne
    · next hbn =>
      split at hb
      · next he =>
        cases hb
        exact hcut.immediate_below hin hroot hbn (h.idom b old he)
      · next he =>
        have hreach : Reaches E DT.root b := (h.node b).mp ((getNode_iff DT b).mpr (.inr (by rw [hb]; rfl)))
        exact hcut.immediate_other hin hroot hbn hreach (fun hd => he (hd ▸ hb)) (h.idom b d hb)

/-- A split keeps the tree right, whether the block is reached or not. -/
theorem Right.splitUpdate (hne : old ≠ new) : (DT.splitUpdate old new).Right F := by
  unfold DominatorTree.splitUpdate
  split
  · next hold => exact h.insertBelow hcut hin hroot hne hold
  · next hold =>
    have hunreached : ¬Reaches E DT.root old := fun hr => hold ((h.node old).mpr hr)
    refine h.of_sameWays (sameWays_of_edges fun a ha b => ?_)
    rw [hcut.edge]
    have haold : a ≠ old := fun he => hunreached (he ▸ ha)
    have hanew : a ≠ new := fun he => not_reaches hroot hin (he ▸ ha)
    simp [haold, hanew]

end Right

end DominatorTree

end Atrox.IR
