import Atrox.Transforms.CloneBehaviour
import Atrox.Transforms.SeparatedDominators

/-!
# The dominators while a region is cloned (CodeExtractor.cpp)

An extractor that is given a dominator tree takes only reached blocks and keeps the tree up to date while it severs
the header and splits returns. When the header dominates the region, the tree is right at the end.
-/

namespace Atrox
open IR Lib

section Source

/- `severSplitPHINodes`: the tree goes to `SplitBlock`; the redirected latches leave it alone. -/
def severSplitPHINodesDT (ce : CodeExtractor) (M : Module) (DT : DominatorTree) (header : BlockId) :
    Option (CodeExtractor × Module × DominatorTree × BlockId) := do
  let hb ← M.block? header
  let (ce', M', header') ← severSplitPHINodes ce M header
  let DT := if (severs M ce.blocks hb).isSome then DT.splitUpdate header M.nextId else DT
  return (ce', M', DT, header')

/- One round of `splitReturnBlocks`. The node of the block is used without a test for null. -/
def splitReturnBlockDT (st : Module × DominatorTree) (b : BlockId) : Option (Module × DominatorTree) :=
  match (st.1.block? b).bind Block.terminator? with
  | some ri =>
    if ri.op = .ret then
      if st.2.getNode b then some ((st.1.splitBlock b ri.id).1, st.2.insertBelow b st.1.nextId) else none
    else some st
  | none => some st

def splitReturnBlocksDT (blocks : SetVector BlockId) (M : Module) (DT : DominatorTree) : Option (Module × DominatorTree) :=
  blocks.elems.foldlM splitReturnBlockDT (M, DT)

/- `cloneCodeRegion` with a tree. -/
def cloneCodeRegionDT (ce : CodeExtractor) (M : Module) (DT : DominatorTree) :
    Option (CodeExtractor × Module × DominatorTree × Option FuncId) := do
  match ce.blocks.elems.head? with
  | none => return (ce, M, DT, none)
  | some header =>
    let oldFunction ← M.parent? header
    if ce.allowVarArgs && oldFunction.isVarArg && varArgsOutside oldFunction ce.blocks then
      return (ce, M, DT, none)
    let (ce, M, DT, header) ← severSplitPHINodesDT ce M DT header
    let (M, DT) ← splitReturnBlocksDT ce.blocks M DT
    let (M, f) ← cloneSevered ce M header oldFunction
    return (ce, M, DT, some f)

end Source

section Edges
variable {M N : Module} {g : Block → Block}

theorem mapBlocks_block? (hid : ∀ b, (g b).id = b.id) (M : Module) (a : BlockId) :
    (M.mapBlocks g).block? a = (M.block? a).map g := by
  unfold Module.block?
  rw [mapBlocks_blocks, List.find?_map]
  refine congrArg (Option.map g) (congrArg (List.find? · M.blocks) (funext fun b => ?_))
  simp only [Function.comp_apply, hid]

theorem mapBlocks_succsOf (hid : ∀ b, (g b).id = b.id) (r : Block → BlockId → BlockId)
    (hsuccs : ∀ b, (g b).succs = b.succs.map (r b)) (a : BlockId) (c : BlockId) :
    Edge (M.mapBlocks g) a c ↔ ∃ b, M.block? a = some b ∧ ∃ s ∈ b.succs, c = r b s := by
  unfold Edge Module.succsOf
  rw [mapBlocks_block? hid]
  cases hb : M.block? a with
  | none => simp
  | some b => simp [hsuccs, eq_comm]

/- Blocks that keep their successors keep the edges. -/
theorem mapBlocks_edge (hid : ∀ b, (g b).id = b.id) (hsuccs : ∀ b, (g b).succs = b.succs) (a c : BlockId) :
    Edge (M.mapBlocks g) a c ↔ Edge M a c := by
  rw [mapBlocks_succsOf hid (fun _ s => s) (by simpa using hsuccs)]
  unfold Edge Module.succsOf
  cases hb : M.block? a with
  | none => simp
  | some b => simp

theorem mapInsts_succs {k : Inst → Inst} {r : BlockId → BlockId} (hk : ∀ i, (k i).succs = i.succs.map r) (b : Block) :
    (b.mapInsts k).succs = b.succs.map r := by
  unfold Block.succs Block.terminator? Block.mapInsts
  rw [List.getLast?_map]
  cases b.insts.getLast? with
  | none => rfl
  | some i => exact hk i

theorem consInst_succs {phi : Inst} (h : phi.succs = []) (b : Block) : (consInst phi b).succs = b.succs := by
  unfold Block.succs Block.terminator? consInst
  cases hl : b.insts with
  | nil => exact h
  | cons i is => rw [List.getLast?_cons_cons]

end Edges

section Sever
variable {M N : Module} {f : FuncId} {DT : DominatorTree} {old new : BlockId}

/- The latches lead to the second half from now on. -/
theorem latches_redirect (latches : List BlockId) (hhalf : Edge M old new) (honly : ∀ a, Edge M a new → a = old)
    (hne : old ≠ new) : Redirect (Edge M)
      (Edge (M.mapIn latches (Block.mapInsts (Inst.replaceSuccOfWith old new)))) (· ∈ latches) old new where
  half := hhalf
  only := honly
  ne := hne
  edge := by
    intro a c
    have hsuccs : ∀ b : Block, (if b.id ∈ latches then b.mapInsts (Inst.replaceSuccOfWith old new) else b).succs =
        b.succs.map fun s => if b.id ∈ latches ∧ s = old then new else s := by
      intro b
      split
      · next hb =>
        rw [mapInsts_succs (r := fun s => if s = old then new else s) fun _ => rfl]
        simp only [hb, true_and]
      · next hb => simp only [hb, false_and, if_false, List.map_id']
    have hid : ∀ b : Block, (if b.id ∈ latches then b.mapInsts (Inst.replaceSuccOfWith old new) else b).id = b.id := by
      intro b
      split <;> rfl
    rw [Module.mapIn, mapBlocks_succsOf hid _ hsuccs]
    constructor
    · rintro ⟨b, hb, s, hs, rfl⟩
      have hedge : Edge M a s := by
        unfold Edge Module.succsOf
        rw [hb]
        exact hs
      rw [(block?_some hb).2]
      split
      · next hred => exact .inr ⟨hred.1, hred.2 ▸ hedge, rfl⟩
      · next hred => exact .inl ⟨hedge, hred⟩
    · have hblock : ∀ s, Edge M a s → ∃ b, M.block? a = some b ∧ s ∈ b.succs := by
        intro s hs
        unfold Edge Module.succsOf at hs
        cases hb : M.block? a with
        | none => simp [hb] at hs
        | some b => exact ⟨b, rfl, by simpa [hb] using hs⟩
      rintro (⟨he, hred⟩ | ⟨hl, he, rfl⟩)
      · obtain ⟨b, hb, hs⟩ := hblock c he
        exact ⟨b, hb, c, hs, by rw [(block?_some hb).2, if_neg hred]⟩
      · obtain ⟨b, hb, hs⟩ := hblock old he
        exact ⟨b, hb, old, hs, by rw [(block?_some hb).2, if_pos ⟨hl, rfl⟩]⟩

/- Moving the edges of a PHI moves no edge of the control flow. -/
theorem severPHI_edge {ce ce' : CodeExtractor} {pn : InstId} (h : severPHI old new (ce, M) pn = some (ce', N))
    (a c : BlockId) : Edge N a c ↔ Edge M a c := by
  obtain ⟨PN, moved, kept, -, -, -, -, rfl⟩ := severPHI_inv h
  have hplain : ∀ {k : Inst → Inst}, (∀ i, (k i).succs = i.succs) → ∀ b : Block, (b.mapInsts k).succs = b.succs := by
    intro k hk b
    rw [mapInsts_succs (r := id) (fun i => by rw [hk, List.map_id]), List.map_id]
  have hif : ∀ {k : Block → Block} (bs : List BlockId), (∀ b, (k b).id = b.id) → (∀ b, (k b).succs = b.succs) →
      ∀ (K : Module) (a c : BlockId), Edge (K.mapIn bs k) a c ↔ Edge K a c := by
    intro k bs hid hs K a c
    refine mapBlocks_edge (fun b => ?_) (fun b => ?_) a c
    · split
      · exact hid b
      · rfl
    · split
      · exact hs b
      · rfl
  change Edge (((M.replaceAllUsesWith _ _).mapIn _ _).mapIn _ _) a c ↔ _
  rw [hif (k := consInst _) _ (fun _ => rfl) (consInst_succs rfl),
    hif (k := Block.mapInsts _) _ (fun _ => rfl) (hplain fun i => by split <;> rfl)]
  exact mapBlocks_edge (g := Block.mapInsts (Inst.replaceUsesOfWith PN.val (.inst M.nextId PN.ty))) (fun _ => rfl)
    (hplain fun _ => rfl) a c

/- The tree is right, and the blocks of the region are in it. -/
structure TreeInv (M : Module) (f : FuncId) (DT : DominatorTree) (blocks : SetVector BlockId) : Prop where
  wf : M.WF
  edges : EdgesExist M
  tree : IsDominatorTree M f DT
  node : ∀ b ∈ blocks, DT.getNode b = true

/- New edges lead where edges led, and the entry reaches the same in the same ways. -/
theorem TreeInv.of_sameWays {blocks : SetVector BlockId} (h : TreeInv M f DT blocks) (hwf : N.WF)
    (hids : N.blocks.map Block.id = M.blocks.map Block.id) (hface : N.funcs.map Function.face = M.funcs.map Function.face)
    (htarget : ∀ a c, Edge N a c → ∃ b, Edge M b c) (hways : SameWays (Edge M) (Edge N) DT.root) :
    TreeInv N f DT blocks where
  wf := hwf
  edges := by
    intro a c hac
    obtain ⟨b, hb⟩ := htarget a c hac
    obtain ⟨x, hx, rfl⟩ := h.edges b c hb
    exact List.mem_map.mp (hids ▸ List.mem_map_of_mem hx)
  tree := ⟨h.tree.toRight.of_sameWays hways, entry_of_faces hface h.tree.entry⟩
  node := h.node

/- A block cut in two, the second half a node of its own. -/
theorem TreeInv.split {blocks : SetVector BlockId} (h : TreeInv M f DT blocks) {b : Block} (hb : b ∈ M.blocks)
    {xs ys : List Inst} {i : Inst} (hsplit : b.insts = xs ++ i :: ys) (hphi : i.isPHI = false)
    (hpad : i.op.isEHPad = false) (hnode : DT.getNode b.id = true) {blocks' : SetVector BlockId}
    (hblocks : ∀ c ∈ blocks', c ∈ blocks ∨ c = M.nextId) :
    TreeInv (M.splitBlock b.id i.id).1 f (DT.insertBelow b.id M.nextId) blocks' where
  wf := splitBlock_wf h.wf b.id i.id
  edges := split_edgesExist h.wf h.edges hb i.id (splitBlock_nodeSplit h.wf.toIds hb hsplit hphi hpad)
  tree := by
    have htree := splitBlock_dominatorTree h.wf h.edges h.tree hb (splitBlock_nodeSplit h.wf.toIds hb hsplit hphi hpad)
    rwa [DominatorTree.splitUpdate, if_pos hnode] at htree
  node := by
    intro c hc
    have hnew := h.tree.toRight.lookup_new (edge_fresh h.wf.toIds h.edges) (h.tree.root_ne h.wf.toIds)
    rw [DominatorTree.insertBelow_getNode DT b.id M.nextId hnew]
    exact (hblocks c hc).imp_left (h.node c)

variable {ce ce' : CodeExtractor} {M' : Module} {header header' : BlockId}

theorem severPHI_treeInv {ce₁ ce₂ : CodeExtractor} {pn : InstId} {blocks : SetVector BlockId}
    (h : TreeInv M f DT blocks) (hs : severPHI old new (ce₁, M) pn = some (ce₂, N)) : TreeInv N f DT blocks := by
  obtain ⟨hwf, -, -, hids, -⟩ := severPHI_wf h.wf hs
  exact h.of_sameWays hwf hids (severPHI_face hs) (fun a c hac => ⟨a, (severPHI_edge hs a c).mp hac⟩)
    (sameWays_of_edges fun a _ c => (severPHI_edge hs a c).symm)

/- Every latch stands in the region, so the header dominates it, and the second half does. -/
theorem severSplitPHINodesDT_treeInv (h : TreeInv M f DT ce.blocks) (hheader : header ∈ ce.blocks)
    (hpad : HeaderNoPad M header) (hdom : ∀ b ∈ ce.blocks, Dominates (Edge M) DT.root header b)
    (hs : severSplitPHINodes ce M header = some (ce', M', header')) :
    ∃ DT', severSplitPHINodesDT ce M DT header = some (ce', M', DT', header') ∧ TreeInv M' f DT' ce'.blocks := by
  obtain ⟨hb, hfind, hcase⟩ := severSplitPHINodes_cases hs
  obtain ⟨hbm, rfl⟩ := block?_some hfind
  have hrun : severSplitPHINodesDT ce M DT hb.id = some (ce', M',
      if (severs M ce.blocks hb).isSome then DT.splitUpdate hb.id M.nextId else DT, header') := by
    unfold severSplitPHINodesDT
    rw [hfind, hs]
    rfl
  refine ⟨_, hrun, ?_⟩
  rcases hcase with ⟨hsev, rfl, rfl⟩ | ⟨n, first, hsev, hfirst, hcase⟩
  · rw [hsev]
    exact h
  · have hnode := h.node hb.id hheader
    rw [hsev, Option.isSome_some, if_pos rfl, DominatorTree.splitUpdate, if_pos hnode]
    have hp := hpad.first hfind hfirst
    obtain ⟨-, hphi, rest, hsplit⟩ := firstNonPHI_spec hfirst
    have hblocks : ∀ c ∈ (ce.blocks.remove hb.id).insert M.nextId, c ∈ ce.blocks ∧ c ≠ hb.id ∨ c = M.nextId := by
      intro c hc
      refine (SetVector.mem_insert.mp hc).imp_left fun hc => ?_
      exact (SetVector.mem_remove.mp hc).symm
    have hsplitInv : TreeInv (M.splitBlock hb.id first.id).1 f (DT.insertBelow hb.id M.nextId)
        ((ce.blocks.remove hb.id).insert M.nextId) :=
      h.split hbm hsplit hphi hp hnode fun c hc => (hblocks c hc).imp_left And.left
    have hcut := splitBlock_nodeSplit h.wf.toIds hbm hsplit hphi hp
    rcases hcase with ⟨rfl, rfl⟩ | ⟨x, pn, -, -, hfold⟩
    · exact hsplitInv
    · have hin := edge_fresh h.wf.toIds h.edges
      have hroot := h.tree.root_ne h.wf.toIds
      have hred := latches_redirect (M := (M.splitBlock hb.id first.id).1)
        (pn.incoming.filter fun b => b ∈ (ce.blocks.remove hb.id).insert M.nextId) hcut.half
        (fun _ => hcut.only hin) (Nat.ne_of_lt (h.wf.blocks_lt hb hbm))
      have hdom' : ∀ a, a ∈ pn.incoming.filter (fun b => b ∈ (ce.blocks.remove hb.id).insert M.nextId) →
          Edge (M.splitBlock hb.id first.id).1 a hb.id →
          Dominates (Edge (M.splitBlock hb.id first.id).1) DT.root M.nextId a := by
        intro a ha _
        rcases hblocks a (of_decide_eq_true (List.mem_filter.mp ha).2) with ⟨hin', hne⟩ | rfl
        · exact (hcut.dominates_half hin hroot hne).mpr (hdom a hin')
        · exact dominates_self DT.root M.nextId
      have hways := hred.sameWays hroot hdom'
      have hlatch := hsplitInv.of_sameWays (latches_wf hsplitInv.wf _ _ _) (mapIn_ids (g := Block.mapInsts _) (fun _ => rfl) _)
        (mapIn_face (g := Block.mapInsts _) (fun _ => rfl) _ _) ?_ (by rwa [DominatorTree.insertBelow_root])
      · have hrounds := foldlM_preserves (P := fun st : CodeExtractor × Module => st.1.blocks =
            (ce.blocks.remove hb.id).insert M.nextId ∧ TreeInv st.2 f (DT.insertBelow hb.id M.nextId)
              ((ce.blocks.remove hb.id).insert M.nextId)) _ ?_ ⟨rfl, hlatch⟩ hfold
        · exact hrounds.1 ▸ hrounds.2
        · rintro pn ⟨c, K⟩ ⟨c', K'⟩ - ⟨hc, hK⟩ hstep
          obtain ⟨-, -, hsame, -, -⟩ := severPHI_wf hK.wf hstep
          exact ⟨hsame.trans hc, severPHI_treeInv hK hstep⟩
      · intro a c hac
        rcases (hred.edge a c).mp hac with ⟨he, -⟩ | ⟨-, -, rfl⟩
        · exact ⟨a, he⟩
        · exact ⟨hb.id, hcut.half⟩

end Sever

section Returns
variable {M : Module} {f : FuncId} {DT : DominatorTree} {blocks : SetVector BlockId}

/- A block of the region has a node, so no null pointer is used. -/
theorem splitReturnBlockDT_treeInv (h : TreeInv M f DT blocks) {n : BlockId} (hn : n ∈ blocks) :
    ∃ DT', splitReturnBlockDT (M, DT) n = some (splitReturnBlock M n, DT') ∧ TreeInv (splitReturnBlock M n) f DT' blocks := by
  unfold splitReturnBlockDT splitReturnBlock
  dsimp only
  cases hri : (M.block? n).bind Block.terminator? with
  | none => exact ⟨DT, rfl, h⟩
  | some ri =>
    dsimp only
    by_cases hret : ri.op = .ret
    · rw [if_pos hret, if_pos hret, if_pos (h.node n hn)]
      obtain ⟨b, hb, hlast⟩ := Option.bind_eq_some_iff.mp hri
      obtain ⟨hbm, rfl⟩ := block?_some hb
      obtain ⟨xs, ys, hsplit⟩ := List.append_of_mem (List.mem_of_getLast? hlast)
      have hphi : ri.isPHI = false := by simp [Inst.isPHI, hret]
      have hpad : ri.op.isEHPad = false := by rw [hret]; rfl
      exact ⟨_, rfl, h.split hbm hsplit hphi hpad (h.node b.id hn) fun _ => .inl⟩
    · rw [if_neg hret, if_neg hret]
      exact ⟨DT, rfl, h⟩

theorem splitReturnBlocksDT_treeInv (h : TreeInv M f DT blocks) : ∃ DT',
    splitReturnBlocksDT blocks M DT = some (splitReturnBlocks blocks M, DT') ∧ TreeInv (splitReturnBlocks blocks M) f DT' blocks := by
  unfold splitReturnBlocksDT splitReturnBlocks
  suffices hrun : ∀ bs : List BlockId, (∀ b ∈ bs, b ∈ blocks) → ∀ {N : Module} {T : DominatorTree}, TreeInv N f T blocks →
      ∃ DT', bs.foldlM splitReturnBlockDT (N, T) = some (bs.foldl splitReturnBlock N, DT') ∧
        TreeInv (bs.foldl splitReturnBlock N) f DT' blocks from hrun blocks.elems (fun _ => id) h
  intro bs hbs
  induction bs with
  | nil => exact fun hN => ⟨_, rfl, hN⟩
  | cons b bs ih =>
    intro N T hN
    obtain ⟨T₁, hstep, hN₁⟩ := splitReturnBlockDT_treeInv hN (hbs b (List.mem_cons_self ..))
    obtain ⟨T₂, hrest, hN₂⟩ := ih (fun c hc => hbs c (List.mem_cons_of_mem b hc)) hN₁
    refine ⟨T₂, ?_, hN₂⟩
    rw [List.foldlM_cons, hstep]
    exact hrest

/- A function behind the others leads nowhere the old ones go. -/
theorem extended_dominatorTree {nf : Function} {n : Nat} (hM : M.Ids) (hN : (extended M nf n).Ids) (hex : EdgesExist M)
    (h : IsDominatorTree M f DT) : IsDominatorTree (extended M nf n) f DT where
  toRight := by
    refine h.toRight.of_sameWays (sameWays_of_edges fun a ha c => ?_)
    have hmem : ∃ x ∈ M.blocks, x.id = a := by
      rcases Relation.ReflTransGen.cases_tail ha with rfl | ⟨p, -, hp⟩
      · exact h.root_mem
      · exact hex p a hp
    obtain ⟨y, hy, hya⟩ := hmem
    rw [edge_iff hM, edge_iff hN]
    constructor
    · rintro ⟨x, hx, hid, hc⟩
      exact ⟨x, extended_mem hx, hid, hc⟩
    · rintro ⟨x, hx, hid, hc⟩
      obtain rfl := List.inj_on_of_nodup_map hN.blocks_nodup (extended_mem hy) hx (hya.trans hid.symm)
      exact ⟨y, hy, hya, hc⟩
  entry := by
    obtain ⟨F, hF, hid, hentry⟩ := h.entry
    exact ⟨F, List.mem_append_left [nf] hF, hid, hentry⟩

end Returns

section Clone
variable {ce₀ ce ce' : CodeExtractor} {M M' : Module} {f : FuncId} {DT : DominatorTree}

/- With a tree only blocks with a node are taken. -/
theorem insertBlocks_reached {isReachable : BlockId → Bool} {bs : List BlockId} {s r : SetVector BlockId}
    (hs : ∀ b ∈ s, isReachable b = true) (h : insertBlocks (some isReachable) s bs = some r) :
    ∀ b ∈ r, isReachable b = true := by
  induction bs generalizing s with
  | nil =>
    cases h
    exact hs
  | cons c bs ih =>
    unfold insertBlocks at h
    split at h
    · exact ih hs h
    · next hc =>
      split at h
      · cases h
      · refine ih (fun b hb => ?_) h
        rcases SetVector.mem_insert.mp hb with hb | rfl
        · exact hs b hb
        · simpa using hc

theorem codeExtractor_reached {bbs : List BlockId} {iterInfo : Option IteratorInfo} {LBA : Option LoopBoundsAnalyzer}
    {isReachable : BlockId → Bool} {agg varArgs allocas flatten : Bool}
    (h : codeExtractor M bbs iterInfo LBA (some isReachable) agg varArgs allocas flatten = some ce) :
    ∀ b ∈ ce.blocks, isReachable b = true := by
  have hnone : ∀ b ∈ (∅ : SetVector BlockId), isReachable b = true := fun b hb => absurd hb (SetVector.notMem_empty b)
  obtain ⟨blocks, hb, rfl⟩ := Option.map_eq_some_iff.mp h
  unfold buildExtractionBlockSet at hb
  split at hb
  · cases hb
  · obtain ⟨result, hr, rfl⟩ := Option.map_eq_some_iff.mp hb
    dsimp only
    split
    · exact insertBlocks_reached hnone hr
    · exact hnone

/- A run of `cloneCodeRegion` goes on with the tree as it went without. -/
theorem TreeInv.cloneCodeRegion {r : Option FuncId} (hinv : TreeInv M f DT ce.blocks)
    (hpad : ∀ header, ce.blocks.elems.head? = some header → HeaderNoPad M header)
    (hdom : ∀ header, ce.blocks.elems.head? = some header → ∀ b ∈ ce.blocks, Dominates (Edge M) DT.root header b)
    (hout : ∀ v ∈ ce.outputs, v.below M.nextId) (h : cloneCodeRegion ce M = some (ce', M', r)) :
    ∃ DT', cloneCodeRegionDT ce M DT = some (ce', M', DT', r) ∧ IsDominatorTree M' f DT' := by
  have hexist : ∀ b ∈ ce.blocks.elems, ∃ x ∈ M.blocks, x.id = b := by
    intro b hb
    rcases Relation.ReflTransGen.cases_tail ((hinv.tree.node b).mp (hinv.node b hb)) with rfl | ⟨p, -, hpb⟩
    · exact hinv.tree.root_mem
    · exact hinv.edges p b hpb
  have hrun := h
  unfold Atrox.cloneCodeRegion at hrun
  unfold cloneCodeRegionDT
  cases hheader : ce.blocks.elems.head? with
  | none =>
    rw [hheader] at hrun
    cases hrun
    exact ⟨DT, rfl, hinv.tree⟩
  | some header =>
    rw [hheader] at hrun
    obtain ⟨old, hold, hrun⟩ := Option.bind_eq_some_iff.mp hrun
    dsimp only [Option.bind_eq_bind]
    rw [hold, Option.bind_some]
    split at hrun
    · next hva =>
      cases hrun
      rw [if_pos hva]
      exact ⟨DT, rfl, hinv.tree⟩
    · next hva =>
      rw [if_neg hva]
      obtain ⟨⟨ce₁, M₁, header'⟩, hsever, hrun⟩ := Option.bind_eq_some_iff.mp hrun
      obtain ⟨⟨M₂, g⟩, hclone, hrun⟩ := Option.bind_eq_some_iff.mp hrun
      cases hrun
      obtain ⟨DT₁, hrun₁, hinv₁⟩ := severSplitPHINodesDT_treeInv hinv (List.mem_of_mem_head? hheader)
        (hpad header hheader) (hdom header hheader) hsever
      obtain ⟨DT₂, hrun₂, hinv₂⟩ := splitReturnBlocksDT_treeInv hinv₁
      refine ⟨DT₂, ?_, ?_⟩
      · simp only [Option.pure_def, hrun₁, hrun₂, hclone, Option.bind_some]
      · -- the new function stands behind what was split
        obtain ⟨x, rfl, -⟩ := cloneCodeRegion_extraction hinv.wf hexist h
        obtain rfl : x.severed = M₁ := by
          have hsame := x.severed_eq
          rw [Option.some.inj (x.header_head.symm.trans hheader), hsever] at hsame
          exact (congrArg (fun r => r.2.1) (Option.some.inj hsame)).symm
        have hwf : x.cloned.result.WF := x.cloned.result_wf fun v hv =>
          (hout v (x.from_.sets.outputs ▸ hv)).mono x.nextId_le
        exact extended_dominatorTree hinv₂.wf.toIds hwf.toIds hinv₂.edges hinv₂.tree

/- An extractor with the tree of the function: it takes blocks with a node only, clones what it would clone without the
updates, never uses the node of a block that has none, and leaves the tree right. -/
theorem cloneCodeRegionDT_dominatorTree {bbs : List BlockId} {iterInfo : Option IteratorInfo}
    {LBA : Option LoopBoundsAnalyzer} {agg varArgs allocas flatten : Bool} {acc : Option (List InstId)}
    {r : Option FuncId} (hM : M.WF) (hex : EdgesExist M) (hDT : IsDominatorTree M f DT)
    (h0 : codeExtractor M bbs iterInfo LBA (some DT.getNode) agg varArgs allocas flatten = some ce₀)
    (hp : ce₀.prepare M = some ce)
    (hdom : ∀ header, ce.blocks.elems.head? = some header → ∀ b ∈ ce.blocks, Dominates (Edge M) DT.root header b)
    (h : cloneCodeRegion { ce with accesses := acc } M = some (ce', M', r)) :
    (∀ b ∈ ce.blocks, DT.getNode b = true) ∧
    ∃ DT', cloneCodeRegionDT { ce with accesses := acc } M DT = some (ce', M', DT', r) ∧ IsDominatorTree M' f DT' := by
  have hblocks := prepare_blocks hp
  have hinv : TreeInv M f DT ({ ce with accesses := acc } : CodeExtractor).blocks :=
    ⟨hM, hex, hDT, hblocks ▸ codeExtractor_reached h0⟩
  refine ⟨hinv.node, ?_⟩
  exact hinv.cloneCodeRegion
    (fun header hheader => codeExtractor_noPad h0 (by rw [← hblocks]; exact hheader)) hdom
    (prepare_outputs_below hM hp : ∀ v ∈ ce.outputs, v.below M.nextId) h

/- The dominator tree of `walkLoop`. -/
def walkTree : DominatorTree := ⟨0, AList.insert 4 3 (AList.insert 3 0 (AList.insert 2 0 (AList.insert 1 0 ∅)))⟩

theorem walkTree_lookup (b : BlockId) : walkTree.idom.lookup b =
    if b = 4 then some 3 else if b = 3 ∨ b = 2 ∨ b = 1 then some 0 else none := by
  unfold walkTree
  by_cases h4 : b = 4
  · subst h4
    rfl
  · by_cases h : b = 3 ∨ b = 2 ∨ b = 1
    · rcases h with rfl | rfl | rfl <;> rfl
    · rw [if_neg h4, if_neg h]
      simp only [not_or] at h
      rw [AList.lookup_insert_ne h4, AList.lookup_insert_ne h.1, AList.lookup_insert_ne h.2.1, AList.lookup_insert_ne h.2.2]
      rfl

theorem walkLoop_edge {a c : BlockId} (h : Edge walkLoop a c) :
    a = 0 ∧ (c = 1 ∨ c = 2) ∨ (a = 1 ∨ a = 2) ∧ c = 3 ∨ a = 3 ∧ (c = 3 ∨ c = 4) := by
  obtain ⟨x, hx, rfl, hc⟩ := (edge_iff walkLoop_wf.toIds).mp h
  have hall : ∀ x ∈ walkLoop.blocks, ∀ c ∈ x.succs, x.id = 0 ∧ (c = 1 ∨ c = 2) ∨ (x.id = 1 ∨ x.id = 2) ∧ c = 3 ∨
    x.id = 3 ∧ (c = 3 ∨ c = 4) := by decide
  exact hall x hx c hc

theorem walkLoop_dominatorTree : IsDominatorTree walkLoop 9 walkTree := by
  have h01 : Edge walkLoop 0 1 := by unfold Edge; decide
  have h02 : Edge walkLoop 0 2 := by unfold Edge; decide
  have h13 : Edge walkLoop 1 3 := by unfold Edge; decide
  have h23 : Edge walkLoop 2 3 := by unfold Edge; decide
  have h34 : Edge walkLoop 3 4 := by unfold Edge; decide
  refine ⟨⟨by decide, fun b => ⟨fun hb => ?_, fun hr => ?_⟩, fun b d hb => ?_⟩, _, List.mem_singleton_self _, rfl, rfl⟩
  · have hcases : b = 0 ∨ b = 4 ∨ b = 3 ∨ b = 2 ∨ b = 1 := by
      rw [DominatorTree.getNode_iff, walkTree_lookup] at hb
      refine hb.imp_right fun h => ?_
      split at h
      · next h4 => exact .inl h4
      · split at h
        · next h3 => exact .inr h3
        · cases h
    rcases hcases with rfl | rfl | rfl | rfl | rfl
    · exact .refl
    · exact .tail (.tail (.single h01) h13) h34
    · exact .tail (.single h01) h13
    · exact .single h02
    · exact .single h01
  · rcases Relation.ReflTransGen.cases_tail hr with rfl | ⟨a, -, he⟩
    · decide
    · rcases walkLoop_edge he with ⟨-, rfl | rfl⟩ | ⟨-, rfl⟩ | ⟨-, rfl | rfl⟩ <;> decide
  · rw [walkTree_lookup] at hb
    split at hb
    · next h4 =>
      subst h4
      cases hb
      -- the block 3 cannot be gone around
      refine .of_ways (by decide) (dominates_of_closed (S := {x | x < 3}) (by decide) ?_ (by decide)) fun c hc _ =>
        .single ⟨h34, hc.symm⟩
      intro x hx y he hy
      rcases walkLoop_edge he with ⟨-, rfl | rfl⟩ | ⟨-, rfl⟩ | ⟨rfl, -⟩
      · exact Nat.lt_of_sub_eq_succ rfl
      · exact Nat.lt_of_sub_eq_succ rfl
      · exact absurd rfl hy
      · exact absurd hx (Nat.lt_irrefl 3)
    · split at hb
      · next h =>
        cases hb
        have hroot : Dominates (Edge walkLoop) 0 0 b := dominates_root 0 b
        rcases h with rfl | rfl | rfl
        · refine .of_ways (by decide) hroot fun c hc _ => ?_
          -- there is a way on either side
          by_cases h1 : c = 1
          · subst h1
            exact .tail (.single ⟨h02, by decide⟩) ⟨h23, by decide⟩
          · exact .tail (.single ⟨h01, Ne.symm h1⟩) ⟨h13, hc.symm⟩
        · exact .of_ways (by decide) hroot fun c hc _ => .single ⟨h02, hc.symm⟩
        · exact .of_ways (by decide) hroot fun c hc _ => .single ⟨h01, hc.symm⟩
      · cases hb

/- The extractors of the walk and of the block behind it, which returns. -/
def walkRegion : Option (CodeExtractor × CodeExtractor × CodeExtractor × Module × Option FuncId) := do
  let ce₀ ← codeExtractor walkLoop [3, 4] none none (some walkTree.getNode) false false false false
  let ce ← ce₀.prepare walkLoop
  let r ← cloneCodeRegion { ce with accesses := none } walkLoop
  return (ce₀, ce, r)

theorem cloneCodeRegionDT_dominatorTree_walkLoop : ∃ ce ce' M' r DT', (∀ b ∈ ce.blocks, walkTree.getNode b = true) ∧
    cloneCodeRegionDT ce walkLoop walkTree = some (ce', M', DT', some r) ∧ IsDominatorTree M' 9 DT' := by
  have hrun : walkRegion.any (fun r => r.2.2.2.2.isSome ∧ r.2.1.blocks.elems = [3, 4]) = true := by decide
  obtain ⟨⟨ce₀, ce, ce', M', r⟩, hr, hsome⟩ := (Option.any_eq_true _ _).mp hrun
  obtain ⟨hsome, hblocks⟩ := of_decide_eq_true hsome
  obtain ⟨r, rfl⟩ := Option.isSome_iff_exists.mp hsome
  unfold walkRegion at hr
  obtain ⟨_, h0, hr⟩ := Option.bind_eq_some_iff.mp hr
  obtain ⟨_, hp, hr⟩ := Option.bind_eq_some_iff.mp hr
  obtain ⟨_, hclone, hr⟩ := Option.bind_eq_some_iff.mp hr
  cases hr
  have hex : EdgesExist walkLoop := by
    intro a c he
    obtain ⟨x, hx, -, hc⟩ := (edge_iff walkLoop_wf.toIds).mp he
    have hall : ∀ x ∈ walkLoop.blocks, ∀ c ∈ x.succs, ∃ y ∈ walkLoop.blocks, y.id = c := by decide
    exact hall x hx c hc
  have hdom : ∀ header, ce.blocks.elems.head? = some header → ∀ b ∈ ce.blocks,
      Dominates (Edge walkLoop) walkTree.root header b := by
    intro header hhead b hb
    have hb' : b ∈ ce.blocks.elems := hb
    rw [hblocks] at hhead hb'
    obtain rfl := Option.some.inj hhead
    rcases List.mem_cons.mp hb' with rfl | hb'
    · exact dominates_self _ _
    · rw [List.mem_singleton.mp hb']
      exact (walkLoop_dominatorTree.idom 4 3 (by decide)).dominates
  obtain ⟨hnode, DT', hDT', htree⟩ :=
    cloneCodeRegionDT_dominatorTree walkLoop_wf hex walkLoop_dominatorTree h0 hp hdom hclone
  exact ⟨{ ce with accesses := none }, ce', M', r, DT', hnode, hDT', htree⟩

end Clone

end Atrox
