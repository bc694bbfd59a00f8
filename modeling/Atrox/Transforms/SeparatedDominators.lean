import Atrox.Transforms.SeparatedLoops

/-!
# The dominators after the separation pass

`BlockSeparatorPass::run` says that the dominator tree is preserved: `SplitBlock` keeps it up to date, and what it
is told to be is what it is in the new control flow.
-/

namespace Atrox
open IR Lib

/- `DT` is the dominator tree of the function `f`. -/
structure IsDominatorTree (M : Module) (f : FuncId) (DT : DominatorTree) : Prop extends DT.Right (Edge M) where
  entry : ∃ F ∈ M.funcs, F.id = f ∧ F.blocks.head?.map Block.id = some DT.root

section Split
variable {M N : Module} {f : FuncId} {DT : DominatorTree}

/- The entry block is one of the blocks. -/
theorem IsDominatorTree.root_mem (h : IsDominatorTree M f DT) : ∃ x ∈ M.blocks, x.id = DT.root := by
  obtain ⟨F, hF, -, hentry⟩ := h.entry
  obtain ⟨x, hx, hid⟩ := Option.map_eq_some_iff.mp hentry
  exact ⟨x, List.mem_flatMap.mpr ⟨F, hF, List.mem_of_mem_head? hx⟩, hid⟩

theorem IsDominatorTree.root_ne (h : IsDominatorTree M f DT) (hM : M.Ids) : DT.root ≠ M.nextId := by
  obtain ⟨x, hx, hid⟩ := h.root_mem
  exact hid ▸ Nat.ne_of_lt (hM.blocks_lt x hx)

theorem edge_fresh (hM : M.Ids) (hex : EdgesExist M) (a : BlockId) : ¬Edge M a M.nextId := by
  intro h
  obtain ⟨x, hx, hid⟩ := hex a M.nextId h
  exact Nat.ne_of_lt (hM.blocks_lt x hx) hid

theorem splitBlock_dominatorTree (hM : M.WF) (hex : EdgesExist M) (h : IsDominatorTree M f DT) {b : Block}
    (hb : b ∈ M.blocks) {i : Inst} (hnode : NodeSplit (Edge M) (Edge (M.splitBlock b.id i.id).1) b.id M.nextId) :
    IsDominatorTree (M.splitBlock b.id i.id).1 f (DT.splitUpdate b.id M.nextId) where
  toRight := h.toRight.splitUpdate hnode (edge_fresh hM.toIds hex) (h.root_ne hM.toIds)
    (Nat.ne_of_lt (hM.blocks_lt b hb))
  entry := by
    rw [DominatorTree.splitUpdate_root]
    exact entry_of_faces (splitBlock_face M b.id i.id) h.entry

/- A run of splits. -/
theorem TreeSplits.dominatorTree {s t : Module × LoopInfo × DominatorTree} (h : TreeSplits s t) (hM : s.1.WF)
    (hex : EdgesExist s.1) (hDT : IsDominatorTree s.1 f s.2.2) :
    t.1.WF ∧ EdgesExist t.1 ∧ IsDominatorTree t.1 f t.2.2 := by
  induction h with
  | refl => exact ⟨hM, hex, hDT⟩
  | tail _ hstep ih =>
    obtain ⟨hwf, hex', hDT'⟩ := ih
    obtain ⟨b, hb, i, hi, hphi, hpad, rfl⟩ := hstep
    obtain ⟨xs, ys, hsplit⟩ := List.append_of_mem hi
    have hnode := splitBlock_nodeSplit hwf.toIds hb hsplit hphi hpad
    exact ⟨splitBlock_wf hwf b.id i.id, split_edgesExist hwf hex' hb i.id hnode,
      splitBlock_dominatorTree hwf hex' hDT' hb hnode⟩

end Split

/- The pass works on the module and the loops as if there were no tree, and the tree is right afterwards. -/
theorem performDT_dominatorTree (addr : BlockId → Nat) (infos : LoopId → Option IteratorInfo) (isDeclaration : Bool)
    (whiteList : Option (List String)) (name : String) {M : Module} {LI : LoopInfo} {f : FuncId} {DT : DominatorTree}
    (hM : M.WF) (hinv : SplitInv M LI) (hpt : ∀ b ∈ M.blocks, b.HasInsertionPt) (hex : EdgesExist M)
    (hDT : IsDominatorTree M f DT) :
    ∃ r, performDT addr infos isDeclaration whiteList name M LI DT = some r ∧
      perform addr infos isDeclaration whiteList name M LI = some (r.1, r.2.1, r.2.2.1) ∧
      IsDominatorTree r.2.1 f r.2.2.2 := by
  obtain ⟨r, hr⟩ := performDT_exists addr infos isDeclaration whiteList name DT hinv hpt
  obtain ⟨-, -, hright⟩ := (performDT_splits hinv hr).dominatorTree hM hex hDT
  refine ⟨r, hr, ?_, hright⟩
  rw [← perform_forget addr infos isDeclaration whiteList name M LI DT, hr]
  rfl

/- The dominator tree of `counterLoop`. -/
def counterTree : DominatorTree := ⟨0, AList.insert 2 1 (AList.insert 1 0 ∅)⟩

theorem counterLoop_edge {a c : BlockId} (h : Edge counterLoop a c) : a = 0 ∧ c = 1 ∨ a = 1 ∧ (c = 1 ∨ c = 2) := by
  obtain ⟨x, hx, rfl, hc⟩ := (edge_iff counterLoop_splitInv.ids).mp h
  have hall : ∀ x ∈ counterLoop.blocks, ∀ c ∈ x.succs, x.id = 0 ∧ c = 1 ∨ x.id = 1 ∧ (c = 1 ∨ c = 2) := by decide
  exact hall x hx c hc

theorem counterTree_lookup (b : BlockId) :
    counterTree.idom.lookup b = if b = 2 then some 1 else if b = 1 then some 0 else none := by
  unfold counterTree
  by_cases h2 : b = 2
  · subst h2
    rfl
  · by_cases h1 : b = 1
    · subst h1
      rfl
    · simp only [AList.lookup_insert_ne h2, AList.lookup_insert_ne h1, AList.lookup_empty, if_neg h2, if_neg h1]

theorem counterLoop_dominatorTree : IsDominatorTree counterLoop 9 counterTree := by
  have h01 : Edge counterLoop 0 1 := by unfold Edge; decide
  have h12 : Edge counterLoop 1 2 := by unfold Edge; decide
  refine ⟨⟨by decide, fun b => ⟨fun hb => ?_, fun hr => ?_⟩, fun b d hb => ?_⟩, _, List.mem_singleton_self _, rfl, rfl⟩
  · rw [DominatorTree.getNode_iff, counterTree_lookup] at hb
    have hcases : b = 0 ∨ b = 2 ∨ b = 1 := by
      refine hb.imp_right fun h => ?_
      split at h
      · next h2 => exact .inl h2
      · split at h
        · next h1 => exact .inr h1
        · cases h
    rcases hcases with rfl | rfl | rfl
    · exact .refl
    · exact .tail (.single h01) h12
    · exact .single h01
  · rcases Relation.ReflTransGen.cases_tail hr with rfl | ⟨a, -, he⟩
    · decide
    · rcases counterLoop_edge he with ⟨-, rfl⟩ | ⟨-, rfl | rfl⟩ <;> decide
  · rw [counterTree_lookup] at hb
    split at hb
    · next h2 =>
      subst h2
      cases hb
      -- the block 1 cannot be gone around
      refine .of_ways (by decide) (dominates_of_closed (S := {x | x = 0}) rfl ?_ (by simp)) fun c hc _ =>
        .single ⟨h12, hc.symm⟩
      rintro x rfl y he hy
      rcases counterLoop_edge he with ⟨-, rfl⟩ | ⟨h, -⟩
      · exact absurd rfl hy
      · cases h
    · split at hb
      · next h1 =>
        subst h1
        cases hb
        exact .of_ways (by decide) (dominates_root 0 1) fun c hc _ => .single ⟨h01, hc.symm⟩
      · cases hb

theorem performDT_dominatorTree_counterLoop :
    ∃ r, performDT id (fun _ => some counterInfo) false none "f" counterLoop counterLoops counterTree = some r ∧
      perform id (fun _ => some counterInfo) false none "f" counterLoop counterLoops = some (r.1, r.2.1, r.2.2.1) ∧
      IsDominatorTree r.2.1 9 r.2.2.2 :=
  performDT_dominatorTree id (fun _ => some counterInfo) false none "f" counterLoop_wf counterLoop_splitInv (by decide)
    counterLoop_edgesExist counterLoop_dominatorTree

end Atrox
