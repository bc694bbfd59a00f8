import Atrox.Transforms.DecomposePass
import Atrox.Transforms.SeparatedLoops

/-!
# What the decomposition pass leaves alone

`DecomposeMultiDimArrayRefsPass::run` says that the control flow is preserved. More stays: GEPs
apart, each block keeps its instructions in their order, and what comes in are casts, GEPs with
one index and loads.
-/

namespace Atrox
open IR Lib

/- An instruction but for its operands. -/
def IR.Inst.frame (i : Inst) : InstId × Opcode × Ty × Nat × List BlockId × List BlockId :=
  (i.id, i.op, i.ty, i.operands.length, i.incoming, i.succs)

/- What there was before the numbers from `n` on, without GEPs. -/
def IR.Block.skeleton (n : Nat) (b : Block) :
    BlockId × Bool × List BlockId × List (InstId × Opcode × Ty × Nat × List BlockId × List BlockId) :=
  (b.id, b.hasAddressTaken, b.succs, (b.insts.filter fun i => i.id < n && i.op ≠ .getElementPtr).map Inst.frame)

def IR.Function.skeleton (n : Nat) (F : Function) : FuncId × List Param × Bool ×
    List (BlockId × Bool × List BlockId × List (InstId × Opcode × Ty × Nat × List BlockId × List BlockId)) :=
  (F.id, F.params, F.isVarArg, F.blocks.map (Block.skeleton n))

/- No block ends with a GEP. -/
def EndsPlain (M : Module) : Prop := ∀ b ∈ M.blocks, ∀ t, b.insts.getLast? = some t → t.op ≠ .getElementPtr

section Place
variable {M : Module} {gep : Inst} {is : List Inst} {v : Value} {b : Block} {n : Nat}

theorem placed_last (hend : ∀ t, b.insts.getLast? = some t → t.op ≠ .getElementPtr)
    (hgep : ∀ i ∈ b.insts, i.id = gep.id → i.op = .getElementPtr) :
    (placeGEP gep is v b).insts.getLast? = b.insts.getLast?.map (Inst.replaceUsesOfWith gep.val v) := by
  unfold placeGEP
  rcases List.eq_nil_or_concat b.insts with hnil | ⟨xs, t, hsplit⟩
  · rw [hnil]
    rfl
  · rw [List.concat_eq_append] at hsplit
    have hlast : b.insts.getLast? = some t := by rw [hsplit, List.getLast?_concat]
    have hmem : t ∈ b.insts := List.mem_of_getLast? hlast
    have hne : (t.replaceUsesOfWith gep.val v).id ≠ gep.id := fun he => hend t hlast (hgep t hmem he)
    rw [hlast]
    dsimp only
    rw [hsplit, List.map_append, List.flatMap_append, List.map_singleton, List.flatMap_singleton, if_neg hne,
      List.getLast?_concat]
    rfl

theorem placed_filter {xs : List Inst} (hgep : ∀ i ∈ xs, i.id = gep.id → i.op = .getElementPtr)
    (hnew : ∀ i ∈ is, n ≤ i.id) :
    ((((xs.map (Inst.replaceUsesOfWith gep.val v)).flatMap fun x => if x.id = gep.id then is else [x]).filter
      fun i => i.id < n && i.op ≠ .getElementPtr).map Inst.frame) =
        (xs.filter fun i => i.id < n && i.op ≠ .getElementPtr).map Inst.frame := by
  induction xs with
  | nil => rfl
  | cons x xs ih =>
    have hrest := ih fun i hi => hgep i (List.mem_cons_of_mem x hi)
    rw [List.map_cons, List.flatMap_cons, List.filter_append, List.map_append, hrest, List.filter_cons]
    by_cases hid : (x.replaceUsesOfWith gep.val v).id = gep.id
    · have hop : x.op = .getElementPtr := hgep x (List.mem_cons_self ..) hid
      have hnone : is.filter (fun i => i.id < n && i.op ≠ .getElementPtr) = [] := by
        rw [List.filter_eq_nil_iff]
        intro i hi
        simp [Nat.not_lt.mpr (hnew i hi)]
      rw [if_pos hid, hnone, if_neg (by simp [hop])]
      rfl
    · rw [if_neg hid, List.filter_singleton]
      have hframe : (x.replaceUsesOfWith gep.val v).frame = x.frame := by
        simp only [Inst.frame, replaceUsesOfWith_operands, List.length_map]
        rfl
      by_cases hk : (x.id < n && x.op ≠ .getElementPtr) = true
      · have hk' : ((x.replaceUsesOfWith gep.val v).id < n && (x.replaceUsesOfWith gep.val v).op ≠ .getElementPtr) = true := hk
        rw [if_pos hk, hk', Bool.cond_true, List.map_cons, List.map_nil, hframe, List.map_cons]
        rfl
      · have hk' : ¬((x.replaceUsesOfWith gep.val v).id < n && (x.replaceUsesOfWith gep.val v).op ≠ .getElementPtr) = true := hk
        rw [if_neg hk, Bool.eq_false_of_not_eq_true hk', Bool.cond_false]
        rfl

theorem placed_skeleton (hend : ∀ t, b.insts.getLast? = some t → t.op ≠ .getElementPtr)
    (hgep : ∀ i ∈ b.insts, i.id = gep.id → i.op = .getElementPtr) (hnew : ∀ i ∈ is, n ≤ i.id) :
    (placeGEP gep is v b).skeleton n = b.skeleton n := by
  have hsuccs : (placeGEP gep is v b).succs = b.succs := by
    unfold Block.succs Block.terminator?
    rw [placed_last hend hgep, Option.map_map]
    rfl
  unfold Block.skeleton
  rw [hsuccs]
  exact congrArg (fun l => (b.id, b.hasAddressTaken, b.succs, l)) (placed_filter hgep hnew)

end Place

section Rewritten
variable {M : Module} {gep : Inst} {r : Value × IRBuilder}

/- The chain that stands for a GEP, whatever its types. -/
structure StandsFor (M : Module) (gep : Inst) (r : Value × IRBuilder) : Prop where
  from_ : r.2.From M.nextId
  chain : r.2.Chain fun v => v ∈ gep.operands
  last : ∃ g ∈ r.2.insts, r.1 = g.val

theorem decompose_cases {N : Module} {v : Option Value} (h : decomposeMultiDimArrayRefs M gep = some (N, v)) :
    (N = M ∧ v = none) ∨ ∃ r, N = M.rewritten gep r ∧ v = some r.1 ∧ StandsFor M gep r := by
  unfold decomposeMultiDimArrayRefs at h
  cases hops : gep.operands with
  | nil =>
    rw [hops] at h
    cases h
    exact .inl ⟨rfl, rfl⟩
  | cons base indices =>
    rw [hops] at h
    dsimp only at h
    split at h
    · cases h
      exact .inl ⟨rfl, rfl⟩
    · obtain ⟨newTypes, -, h⟩ := Option.bind_eq_some_iff.mp h
      split at h
      · cases h
        exact .inl ⟨rfl, rfl⟩
      · obtain ⟨t, -, h⟩ := Option.bind_eq_some_iff.mp h
        obtain ⟨r, hr, h⟩ := Option.bind_eq_some_iff.mp h
        split at h
        · cases h
        · cases h
          refine .inr ⟨r, rfl, rfl, ?_⟩
          have hstart : (⟨M.nextId, []⟩ : IRBuilder).Chain fun v => v ∈ gep.operands :=
            ⟨fun i hi => absurd hi List.not_mem_nil, fun i hi => absurd hi List.not_mem_nil,
              fun i hi => absurd hi List.not_mem_nil, fun i hi => absurd hi List.not_mem_nil⟩
          have hbase : base ∈ gep.operands := hops ▸ List.mem_cons_self ..
          have hindices : ∀ i ∈ indices, i ∈ gep.operands := fun i hi => hops ▸ List.mem_cons_of_mem base hi
          have hcast : ((⟨M.nextId, []⟩ : IRBuilder).insertInst .cast t [base]).2.Chain fun v => v ∈ gep.operands :=
            insertInst_chain hstart (List.forall_mem_singleton.mpr (.inl hbase)) (.inl rfl)
          obtain ⟨hchain, g, hg, -, hval⟩ := decomposeIndices_chain hcast (insertInst_has _ ..) hindices hr
          exact ⟨decomposeIndices_from (insertInst_from ⟨rfl, rfl⟩ .cast t [base]) hr, hchain, g, hg, hval⟩

theorem rewritten_wf (hM : M.WF) (hgep : gep ∈ M.insts) (hs : StandsFor M gep r) : (M.rewritten gep r).WF := by
  have hle : M.nextId ≤ r.2.nextId := by
    have hnext := hs.from_.2
    omega
  have hnew : ∀ i ∈ r.2.insts, i.val.below r.2.nextId := fun i hi => (from_range hs.from_ hi).2
  have hlast : r.1.below r.2.nextId := by
    obtain ⟨g, hg, hval⟩ := hs.last
    exact hval ▸ hnew g hg
  have hids : (M.rewritten gep r).funcs.map Function.id = M.funcs.map Function.id := by
    rw [rewritten_mapBlocks]
    simp only [Module.mapBlocks, List.map_map]
    rfl
  refine ⟨rewritten_from hM.toIds hs.from_, hids ▸ hM.funcs_nodup, fun f hf => ?_, fun i hi v hv => ?_⟩
  · have hmem : f.id ∈ M.funcs.map Function.id := hids ▸ List.mem_map_of_mem hf
    obtain ⟨F, hF, he⟩ := List.mem_map.mp hmem
    exact he ▸ Nat.lt_of_lt_of_le (hM.funcs_lt F hF) hle
  · rcases mem_rewritten.mp hi with ⟨hi, -⟩ | ⟨y, hy, -, rfl⟩
    · rcases hs.chain.operands i hi v hv with hv | ⟨x, hx, rfl⟩
      · exact (hM.operands_below gep hgep v hv).mono hle
      · exact hnew x hx
    · rw [replaceUsesOfWith_operands] at hv
      obtain ⟨u, hu, rfl⟩ := List.mem_map.mp hv
      unfold replaceValue
      split
      · exact hlast
      · exact (hM.operands_below y hy u hu).mono hle

end Rewritten

section Run
variable {M : Module}

/- One round. -/
theorem decomposeAccess_cases {st st' : Bool × Module} {access : InstId} (h : decomposeAccess st access = some st') :
    st' = st ∨ ∃ gep ∈ st.2.insts, gep.op = .getElementPtr ∧ ∃ r, st' = (true, st.2.rewritten gep r) ∧
      StandsFor st.2 gep r := by
  unfold decomposeAccess at h
  obtain ⟨e, -, h⟩ := Option.bind_eq_some_iff.mp h
  split at h
  · obtain ⟨gep, hgep, h⟩ := Option.bind_eq_some_iff.mp h
    split at h
    · next hop =>
      obtain ⟨⟨N, v⟩, hr, rfl⟩ := Option.map_eq_some_iff.mp h
      rcases decompose_cases hr with ⟨rfl, rfl⟩ | ⟨r, rfl, rfl, hs⟩
      · exact .inl (Prod.ext (Bool.or_false st.1) rfl)
      · exact .inr ⟨gep, inst?_mem hgep, hop, r, Prod.ext (Bool.or_true st.1) rfl, hs⟩
    · exact .inl (Option.some.inj h).symm
  · exact .inl (Option.some.inj h).symm

/- All but the addressing of `M` is in `N`, and what is new in `N` is addressing. -/
structure KeepsBlocks (M N : Module) : Prop where
  wf : N.WF
  nextId : M.nextId ≤ N.nextId
  ends : EndsPlain N
  skeleton : N.funcs.map (Function.skeleton M.nextId) = M.funcs.map (Function.skeleton M.nextId)
  added : ∀ i ∈ N.insts, M.nextId ≤ i.id → i.op = .cast ∨ (i.op = .getElementPtr ∧ i.operands.length = 2) ∨ i.op = .load

theorem KeepsBlocks.rewritten {N : Module} (h : KeepsBlocks M N) {gep : Inst} (hgep : gep ∈ N.insts)
    (hop : gep.op = .getElementPtr) {r : Value × IRBuilder} (hs : StandsFor N gep r) :
    KeepsBlocks M (N.rewritten gep r) := by
  have hfound : ∀ b ∈ N.blocks, ∀ i ∈ b.insts, i.id = gep.id → i.op = .getElementPtr := by
    intro b hb i hi hid
    rw [inst_unique h.wf.toIds (List.mem_flatMap.mpr ⟨b, hb, hi⟩) hgep hid]
    exact hop
  have hnew : ∀ i ∈ r.2.insts, M.nextId ≤ i.id := fun i hi =>
    Nat.le_trans h.nextId (from_range hs.from_ hi).1
  have hplace : ∀ b ∈ N.blocks, (placeGEP gep r.2.insts r.1 b).skeleton M.nextId = b.skeleton M.nextId := fun b hb =>
    placed_skeleton (h.ends b hb) (hfound b hb) hnew
  have hblocks : (N.rewritten gep r).blocks = N.blocks.map (placeGEP gep r.2.insts r.1) := by
    rw [rewritten_mapBlocks, ← mapBlocks_blocks]
    rfl
  refine ⟨rewritten_wf h.wf hgep hs, ?_, ?_, ?_, ?_⟩
  · have hnext : N.nextId ≤ r.2.nextId := by
      have hfrom := hs.from_.2
      omega
    exact Nat.le_trans h.nextId hnext
  · intro b hb t ht
    rw [hblocks] at hb
    obtain ⟨c, hc, rfl⟩ := List.mem_map.mp hb
    rw [placed_last (h.ends c hc) (hfound c hc)] at ht
    obtain ⟨u, hu, rfl⟩ := Option.map_eq_some_iff.mp ht
    exact h.ends c hc u hu
  · rw [← h.skeleton, rewritten_mapBlocks]
    simp only [Module.mapBlocks, List.map_map]
    refine List.map_congr_left fun F hF => ?_
    simp only [Function.comp_apply, Function.skeleton, Function.mapBlocks, List.map_map]
    have hall : F.blocks.map (Block.skeleton M.nextId ∘ placeGEP gep r.2.insts r.1) = F.blocks.map (Block.skeleton M.nextId) :=
      List.map_congr_left fun b hb => hplace b (List.mem_flatMap.mpr ⟨F, hF, hb⟩)
    rw [hall]
  · intro i hi hid
    rcases mem_rewritten.mp hi with ⟨hi, -⟩ | ⟨y, hy, -, rfl⟩
    · rcases hs.chain.ops i hi with hcast | hg | hload
      · exact .inl hcast
      · exact .inr (.inl ⟨hg, hs.chain.geps i hi hg⟩)
      · exact .inr (.inr hload)
    · rw [replaceUsesOfWith_operands, List.length_map]
      exact h.added y hy hid

theorem accesses_keep {accesses : List InstId} {st : Bool × Module} (hM : M.WF) (hends : EndsPlain M)
    (h : accesses.foldlM decomposeAccess (false, M) = some st) : KeepsBlocks M st.2 ∧ (st.1 = false → st.2 = M) := by
  have hstart : KeepsBlocks M M := ⟨hM, Nat.le_refl _, hends, rfl, fun i hi hid => absurd (hM.insts_lt i hi) (Nat.not_lt.mpr hid)⟩
  refine foldlM_preserves (P := fun st => KeepsBlocks M st.2 ∧ (st.1 = false → st.2 = M)) accesses ?_
    ⟨hstart, fun _ => rfl⟩ h
  intro a s s' _ hs hstep
  rcases decomposeAccess_cases hstep with rfl | ⟨gep, hgep, hop, r, rfl, hstands⟩
  · exact hs
  · exact ⟨hs.1.rewritten hgep hop hstands, fun hc => nomatch hc⟩

/- Edges are what the skeletons tell. -/
theorem KeepsBlocks.edge {N : Module} (h : KeepsBlocks M N) (hM : M.WF) {a c : BlockId} : Edge N a c ↔ Edge M a c := by
  have hread : ∀ K : Module, K.WF → (Edge K a c ↔
      ∃ F ∈ K.funcs.map (Function.skeleton M.nextId), ∃ b ∈ F.2.2.2, b.1 = a ∧ c ∈ b.2.2.1) := by
    intro K hK
    rw [edge_iff hK.toIds]
    constructor
    · rintro ⟨x, hx, rfl, hc⟩
      obtain ⟨F, hF, hxF⟩ := List.mem_flatMap.mp hx
      exact ⟨_, List.mem_map_of_mem hF, _, List.mem_map_of_mem hxF, rfl, hc⟩
    · rintro ⟨S, hS, b, hb, rfl, hc⟩
      obtain ⟨F, hF, rfl⟩ := List.mem_map.mp hS
      obtain ⟨x, hx, rfl⟩ := List.mem_map.mp hb
      exact ⟨x, List.mem_flatMap.mpr ⟨F, hF, hx⟩, rfl, hc⟩
  rw [hread N h.wf, hread M hM, h.skeleton]

theorem KeepsBlocks.isEntryBlock {N : Module} (h : KeepsBlocks M N) {b : BlockId} (hb : N.isEntryBlock b = true) :
    M.isEntryBlock b = true := by
  obtain ⟨F, hF, hb⟩ := List.any_eq_true.mp hb
  obtain ⟨G, hG, he⟩ := List.mem_map.mp (h.skeleton ▸ List.mem_map_of_mem hF)
  have hblocks : (G.skeleton M.nextId).2.2.2.head?.map Prod.fst = (F.skeleton M.nextId).2.2.2.head?.map Prod.fst := by
    rw [he]
  simp only [Function.skeleton, List.head?_map, Option.map_map] at hblocks
  exact List.any_eq_true.mpr ⟨G, hG, decide_eq_true (hblocks.trans (of_decide_eq_true hb))⟩

theorem KeepsBlocks.reached {N : Module} (h : KeepsBlocks M N) (hM : M.WF) {b : BlockId} (hr : N.Reached b) :
    M.Reached b := by
  induction hr with
  | entry hb => exact .entry (h.isEntryBlock hb)
  | @succ x s hx _ hs ih => exact reached_edge hM.toIds ih ((h.edge hM).mp ((edge_iff h.wf.toIds).mpr ⟨x, hx, rfl, hs⟩))

theorem KeepsBlocks.rightLoops {N : Module} (h : KeepsBlocks M N) (hM : M.WF) {LI : LoopInfo} (hLI : RightLoops M LI) :
    RightLoops N LI := by
  have hedge : Edge N = Edge M := funext fun _ => funext fun _ => propext (h.edge hM)
  refine ⟨⟨hLI.toWF, hLI.parent_lt, hLI.bbMap_lt, hLI.header, ?_⟩, fun m hm hd hh => hedge ▸ hLI.goesRound m hm hd hh⟩
  intro m hm x hx hr y hy hin hout
  exact natural_entry hM.toIds hLI.toNatural hm (hr.imp_left (h.reached hM))
    ((h.edge hM).mp ((edge_iff h.wf.toIds).mpr ⟨x, hx, rfl, hy⟩)) hin hout

/- Whatever the pass rewrites, the blocks and the control flow stay, and with them what is known of the loops. -/
theorem perform_keeps (isDeclaration : Bool) (whiteList : Option (List String)) (name : String) (f : FuncId)
    {changed : Bool} {N : Module} (hM : M.WF) (hends : EndsPlain M)
    (h : DecomposeMultiDimArrayRefsPass.perform isDeclaration whiteList name M f = some (changed, N)) :
    KeepsBlocks M N ∧ (changed = false → N = M) ∧ (∀ a c, Edge N a c ↔ Edge M a c) ∧
      ∀ LI, RightLoops M LI → RightLoops N LI := by
  have hkeeps : KeepsBlocks M N ∧ (changed = false → N = M) := by
    unfold DecomposeMultiDimArrayRefsPass.perform at h
    split at h
    · cases h
      have hnone : ([] : List InstId).foldlM decomposeAccess (false, M) = some (false, M) := rfl
      exact accesses_keep hM hends hnone
    · exact accesses_keep hM hends h
  exact ⟨hkeeps.1, hkeeps.2, fun _ _ => hkeeps.1.edge hM, fun _ hLI => hkeeps.1.rightLoops hM hLI⟩

theorem perform_keeps_matrixRead : ∃ N, DecomposeMultiDimArrayRefsPass.perform false none "f" matrixRead 9 = some (true, N) ∧
    KeepsBlocks matrixRead N ∧ (true = false → N = matrixRead) ∧ (∀ a c, Edge N a c ↔ Edge matrixRead a c) ∧
      ∀ LI, RightLoops matrixRead LI → RightLoops N LI := by
  have hwf : matrixRead.WF := ⟨matrixRead_arrayAccesses.ids, by decide, by decide, by decide⟩
  have hends : EndsPlain matrixRead := by
    have hall : ∀ b ∈ matrixRead.blocks, ∀ t ∈ b.insts.getLast?.toList, t.op ≠ .getElementPtr := by decide
    exact fun b hb t ht => hall b hb t (Option.mem_toList.mpr ht)
  have hrun : (DecomposeMultiDimArrayRefsPass.perform false none "f" matrixRead 9).any Prod.fst = true := by decide
  obtain ⟨⟨changed, N⟩, hN, hchanged⟩ := (Option.any_eq_true _ _).mp hrun
  obtain rfl : changed = true := hchanged
  exact ⟨N, hN, perform_keeps false none "f" 9 hwf hends hN⟩

end Run

end Atrox
