import Atrox.Transforms.CloneSevered

/-!
# Severing the header and splitting returns

Both edits keep a module well formed and leave the sets of inputs and outputs alone.
-/

namespace Atrox
open IR Lib

theorem splitBlock_funcs (M : Module) (old : BlockId) (pt : InstId) :
    (M.splitBlock old pt).1.funcs.map Function.id = M.funcs.map Function.id := by
  simp only [Module.splitBlock, Module.mapIn, Module.mapBlocks, Module.cutBlock, List.map_map]
  rfl

/- An instruction after a split is an old one up to PHI edges, or the new branch. -/
theorem splitBlock_insts (M : Module) (old : BlockId) (pt : InstId) :
    ∀ i ∈ (M.splitBlock old pt).1.insts,
      (∃ j ∈ M.insts, i.core = j.core) ∨ i.core = Inst.uncondBr M.nextId M.nextId := by
  obtain ⟨h, hh, hblocks⟩ := splitBlock_blocks M old pt
  intro i hi
  rw [Module.insts, hblocks] at hi
  obtain ⟨b, hb, hib⟩ := List.mem_flatMap.mp hi
  obtain ⟨c, hc, rfl⟩ := List.mem_map.mp hb
  obtain ⟨j, hj, hji⟩ := mem_of_core (hh c).2.symm hib
  obtain ⟨b₀, hb₀, hcut⟩ := List.mem_flatMap.mp hc
  have hmem : j ∈ b₀.insts → ∃ j ∈ M.insts, i.core = j.core := fun hm =>
    ⟨j, List.mem_flatMap.mpr ⟨b₀, hb₀, hm⟩, hji.symm⟩
  unfold Block.cut at hcut
  split at hcut
  · simp only [Block.splitAt, List.mem_cons, List.not_mem_nil, or_false] at hcut
    rcases hcut with rfl | rfl
    · rcases List.mem_append.mp hj with hj | hj
      · exact .inl (hmem (List.mem_of_mem_take hj))
      · rw [List.mem_singleton.mp hj] at hji
        exact .inr hji.symm
    · exact .inl (hmem (List.mem_of_mem_drop hj))
  · rw [List.mem_singleton.mp hcut] at hj
    exact .inl (hmem hj)

theorem splitBlock_wf {M : Module} (hM : M.WF) (old : BlockId) (pt : InstId) :
    (M.splitBlock old pt).1.WF := by
  refine ⟨splitBlock_ids hM.toIds old pt, ?_, ?_, ?_⟩
  · rw [splitBlock_funcs]
    exact hM.funcs_nodup
  · intro f hf
    have hm : f.id ∈ M.funcs.map Function.id := splitBlock_funcs M old pt ▸ List.mem_map_of_mem hf
    obtain ⟨g, hg, he⟩ := List.mem_map.mp hm
    rw [← he]
    exact Nat.lt_succ_of_lt (hM.funcs_lt g hg)
  · intro i hi v hv
    rw [splitBlock_nextId]
    rcases splitBlock_insts M old pt i hi with ⟨k, hk, he⟩ | he
    · exact (hM.operands_below k hk v (operands_of_core he ▸ hv)).mono (Nat.le_succ _)
    · rw [operands_of_core (show i.core = (Inst.uncondBr M.nextId M.nextId).core from he)] at hv
      cases hv

/- Returns stay without successors: the branch of a split is no return. -/
theorem splitBlock_ret {M : Module} (hret : ∀ i ∈ M.insts, i.op = .ret → i.succs = []) (old : BlockId)
    (pt : InstId) : ∀ i ∈ (M.splitBlock old pt).1.insts, i.op = .ret → i.succs = [] := by
  intro i hi hop
  rcases splitBlock_insts M old pt i hi with ⟨j, hj, he⟩ | he
  · rw [succs_of_core he]
    exact hret j hj ((op_of_core he).symm.trans hop)
  · have hbr : i.op = .br := op_of_core (show i.core = (Inst.uncondBr M.nextId M.nextId).core from he)
    rw [hop] at hbr
    cases hbr

section MapInsts
variable {M : Module}

theorem mapInsts_ids {g : Inst → Inst} (hid : ∀ i, (g i).id = i.id) (b : Block) :
    (b.mapInsts g).insts.map Inst.id = b.insts.map Inst.id := by
  simp only [Block.mapInsts, List.map_map]
  exact List.map_congr_left fun i _ => hid i

theorem mapBlocks_instIds {g : Block → Block} (hins : ∀ b, (g b).insts.map Inst.id = b.insts.map Inst.id) :
    (M.mapBlocks g).insts.map Inst.id = M.insts.map Inst.id := by
  simp only [Module.insts, mapBlocks_blocks, List.flatMap_map, List.map_flatMap, hins]

theorem mapIn_ids {g : Block → Block} (hid : ∀ b, (g b).id = b.id) (bs : List BlockId) :
    (M.mapIn bs g).blocks.map Block.id = M.blocks.map Block.id := by
  rw [mapIn_blocks, List.map_map]
  apply List.map_congr_left
  intro b _
  simp only [Function.comp_apply]
  split
  · exact hid b
  · rfl

theorem mapIn_instIds {g : Inst → Inst} (hid : ∀ i, (g i).id = i.id) (bs : List BlockId) :
    (M.mapIn bs (Block.mapInsts g)).insts.map Inst.id = M.insts.map Inst.id := by
  refine mapBlocks_instIds fun b => ?_
  split
  · exact mapInsts_ids hid b
  · rfl

/- Functions keep their numbers when their blocks are rewritten. -/
theorem mapBlocks_wf_of_ids (hM : M.WF) {g : Block → Block} (hids : (M.mapBlocks g).Ids)
    (hops : ∀ i ∈ (M.mapBlocks g).insts, ∀ v ∈ i.operands, v.below M.nextId) : (M.mapBlocks g).WF := by
  have hf : (M.mapBlocks g).funcs.map Function.id = M.funcs.map Function.id := by
    simp only [Module.mapBlocks, List.map_map]
    rfl
  refine ⟨hids, ?_, ?_, hops⟩
  · rw [hf]
    exact hM.funcs_nodup
  · intro f hfm
    have hm : f.id ∈ M.funcs.map Function.id := hf ▸ List.mem_map_of_mem hfm
    obtain ⟨k, hk, he⟩ := List.mem_map.mp hm
    rw [← he]
    exact hM.funcs_lt k hk

/- A rewriting of instructions that keeps numbers and old operands keeps a module well formed. -/
theorem mapBlocks_wf (hM : M.WF) (g : Block → Block) (hid : ∀ b, (g b).id = b.id)
    (hins : ∀ b, (g b).insts.map Inst.id = b.insts.map Inst.id)
    (hops : ∀ b ∈ M.blocks, ∀ i ∈ (g b).insts, ∀ v ∈ i.operands, v.below M.nextId) :
    (M.mapBlocks g).WF := by
  have hb : (M.mapBlocks g).blocks.map Block.id = M.blocks.map Block.id := by
    rw [mapBlocks_blocks, List.map_map]
    exact List.map_congr_left fun b _ => hid b
  have hi : (M.mapBlocks g).insts.map Inst.id = M.insts.map Inst.id := mapBlocks_instIds hins
  have hids : (M.mapBlocks g).Ids := by
    have := (ids_iff M).mp hM.toIds
    rw [ids_iff, hb, hi]
    exact this
  refine mapBlocks_wf_of_ids hM hids fun i him v hv => ?_
  rw [Module.insts, mapBlocks_blocks, List.flatMap_map] at him
  obtain ⟨b, hbm, hib⟩ := List.mem_flatMap.mp him
  exact hops b hbm i hib v hv

theorem mapIn_wf (hM : M.WF) (bs : List BlockId) (g : Inst → Inst) (hid : ∀ i, (g i).id = i.id)
    (hops : ∀ i ∈ M.insts, ∀ v ∈ (g i).operands, v.below M.nextId) :
    (M.mapIn bs (Block.mapInsts g)).WF := by
  refine mapBlocks_wf hM _ (fun b => ?_) (fun b => ?_) ?_
  · split <;> rfl
  · split
    · exact mapInsts_ids hid b
    · rfl
  · intro b hb i hi v hv
    split at hi
    · obtain ⟨j, hj, rfl⟩ := List.mem_map.mp hi
      exact hops j (List.mem_flatMap.mpr ⟨b, hb, hj⟩) v hv
    · exact hM.operands_below i (List.mem_flatMap.mpr ⟨b, hb, hi⟩) v hv

end MapInsts

theorem wf_of_funcs {M M' : Module} (hM : M.WF) (hf : M'.funcs = M.funcs)
    (hn : M.nextId ≤ M'.nextId) : M'.WF := by
  have hb : M'.blocks = M.blocks := by simp only [Module.blocks, hf]
  have hi : M'.insts = M.insts := by simp only [Module.insts, hb]
  refine ⟨⟨hb ▸ hM.blocks_nodup, hi ▸ hM.insts_nodup, ?_, ?_⟩, hf ▸ hM.funcs_nodup, ?_, ?_⟩
  · intro b hbm
    exact Nat.lt_of_lt_of_le (hM.blocks_lt b (hb ▸ hbm)) hn
  · intro i him
    exact Nat.lt_of_lt_of_le (hM.insts_lt i (hi ▸ him)) hn
  · intro f hfm
    exact Nat.lt_of_lt_of_le (hM.funcs_lt f (hf ▸ hfm)) hn
  · intro i him v hv
    exact (hM.operands_below i (hi ▸ him) v hv).mono hn

section InsertFront
variable {M : Module} (new : BlockId) (phi : Inst)

def consInst (phi : Inst) (b : Block) : Block := { b with insts := phi :: b.insts }

theorem insertFront_insts (hM : M.WF) :
    (M.mapIn [new] (consInst phi)).insts.map Inst.id = M.insts.map Inst.id ∨
    List.Perm ((M.mapIn [new] (consInst phi)).insts.map Inst.id) (phi.id :: M.insts.map Inst.id) := by
  have hother : ∀ bs : List Block, (∀ b ∈ bs, b.id ≠ new) →
      (bs.map fun b => if b.id ∈ [new] then consInst phi b else b) = bs := by
    intro bs hbs
    conv_rhs => rw [← List.map_id bs]
    apply List.map_congr_left
    intro b hb
    rw [if_neg (by simpa using hbs b hb), id]
  by_cases hnew : ∃ b ∈ M.blocks, b.id = new
  · obtain ⟨b, hb, rfl⟩ := hnew
    obtain ⟨pre, post, hsplit⟩ := List.append_of_mem hb
    have hnd := hM.blocks_nodup
    rw [hsplit, List.map_append, List.map_cons, List.nodup_append, List.nodup_cons] at hnd
    have hpre := hother pre fun x hx he =>
      hnd.2.2 x.id (List.mem_map_of_mem hx) b.id (List.mem_cons_self ..) he
    have hpost := hother post fun x hx he => hnd.2.1.1 (he ▸ List.mem_map_of_mem hx)
    refine .inr ?_
    have hblocks : (M.mapIn [b.id] (consInst phi)).blocks = pre ++ consInst phi b :: post := by
      rw [mapIn_blocks, hsplit, List.map_append, List.map_cons, hpre, hpost]
      simp
    rw [Module.insts, Module.insts, hblocks, hsplit]
    simp only [List.flatMap_append, List.flatMap_cons, consInst, List.map_append, List.map_cons,
      List.cons_append]
    exact List.perm_middle
  · have hsame : (M.mapIn [new] (consInst phi)).blocks = M.blocks := by
      rw [mapIn_blocks]
      exact hother M.blocks fun b hb he => hnew ⟨b, hb, he⟩
    exact .inl (by rw [Module.insts, Module.insts, hsame])

theorem insertFront_wf (hM : M.WF) (hfresh : ∀ i ∈ M.insts, i.id ≠ phi.id) (hlt : phi.id < M.nextId)
    (hops : ∀ v ∈ phi.operands, v.below M.nextId) :
    (M.mapIn [new] (consInst phi)).WF := by
  have hb : (M.mapIn [new] (consInst phi)).blocks.map Block.id = M.blocks.map Block.id := by
    rw [mapIn_blocks, List.map_map]
    apply List.map_congr_left
    intro b _
    simp only [Function.comp_apply]
    split <;> rfl
  have hids : (M.mapIn [new] (consInst phi)).Ids := by
    have hi := (ids_iff M).mp hM.toIds
    rw [ids_iff, hb]
    refine ⟨hi.1, ?_⟩
    rcases insertFront_insts new phi hM with he | hp
    · rw [he]
      exact hi.2
    · constructor
      · rw [hp.nodup_iff, List.nodup_cons]
        refine ⟨?_, hi.2.1⟩
        intro hm
        obtain ⟨i, him, he⟩ := List.mem_map.mp hm
        exact hfresh i him he
      · intro n hn
        rcases List.mem_cons.mp (hp.mem_iff.mp hn) with rfl | hn
        · exact hlt
        · exact hi.2.2 n hn
  refine mapBlocks_wf_of_ids hM hids fun i him v hv => ?_
  have him' : i ∈ (M.mapIn [new] (consInst phi)).insts := him
  rw [Module.insts, mapIn_blocks, List.flatMap_map] at him'
  obtain ⟨b, hbm, hib⟩ := List.mem_flatMap.mp him'
  have hold : i ∈ b.insts → v.below M.nextId := fun hm =>
    hM.operands_below i (List.mem_flatMap.mpr ⟨b, hbm, hm⟩) v hv
  split at hib
  · rcases List.mem_cons.mp hib with rfl | hm
    · exact hops v hv
    · exact hold hm
  · exact hold hib

end InsertFront

/- The fields of an extractor that the edits of the module leave alone. -/
structure SameSets (ce ce' : CodeExtractor) : Prop where
  iterInfo : ce'.iterInfo = ce.iterInfo
  aggregateArgs : ce'.aggregateArgs = ce.aggregateArgs
  allowVarArgs : ce'.allowVarArgs = ce.allowVarArgs
  flattenArrayAccesses : ce'.flattenArrayAccesses = ce.flattenArrayAccesses
  inputs : ce'.inputs = ce.inputs
  outputs : ce'.outputs = ce.outputs
  stackAllocas : ce'.stackAllocas = ce.stackAllocas
  stackAllocaInits : ce'.stackAllocaInits = ce.stackAllocaInits
  accesses : ce'.accesses = ce.accesses

theorem SameSets.refl (ce : CodeExtractor) : SameSets ce ce :=
  ⟨rfl, rfl, rfl, rfl, rfl, rfl, rfl, rfl, rfl⟩

theorem SameSets.trans {ce ce' ce'' : CodeExtractor} (h : SameSets ce ce') (h' : SameSets ce' ce'') :
    SameSets ce ce'' :=
  ⟨h'.1.trans h.1, h'.2.trans h.2, h'.3.trans h.3, h'.4.trans h.4, h'.5.trans h.5, h'.6.trans h.6,
    h'.7.trans h.7, h'.8.trans h.8, h'.9.trans h.9⟩

/-- What one step of severing gives: a PHI in the new header and its edges. -/
theorem severPHI_inv {oldPred newBB : BlockId} {ce ce' : CodeExtractor} {M M' : Module} {pn : InstId}
    (h : severPHI oldPred newBB (ce, M) pn = some (ce', M')) :
    ∃ PN moved kept, M.inst? pn = some PN ∧
      let newPN : Value := .inst M.nextId PN.ty
      let edges := PN.incoming.zip (PN.replaceUsesOfWith PN.val newPN).operands
      moved = edges.filter (fun e => e.1 ∈ ce.blocks) ∧ kept = edges.filter (fun e => e.1 ∉ ce.blocks) ∧
      ce' = { ce with
        inputToOutputMap := followRAUW PN.val newPN ce.inputToOutputMap
        outputToInputMap := followRAUW PN.val newPN ce.outputToInputMap } ∧
      M' = { (((M.replaceAllUsesWith PN.val newPN).mapIn [oldPred] (Block.mapInsts fun i =>
          if i.id = pn then { i with incoming := kept.map Prod.fst, operands := kept.map Prod.snd }
          else i)).mapIn [newBB] (consInst ⟨M.nextId, .phi, PN.ty, PN.val :: moved.map Prod.snd,
            oldPred :: moved.map Prod.fst, []⟩)) with
        nextId := M.nextId + 1
        valueName := fun v => if v = newPN then M.valueName PN.val ++ ".ce" else M.valueName v } := by
  unfold severPHI at h
  obtain ⟨PN, hPN, h⟩ := Option.bind_eq_some_iff.mp h
  dsimp only at h
  split at h
  · cases h
  · cases h
    exact ⟨PN, _, _, hPN, rfl, rfl, rfl, rfl⟩

/- The PHI in the old header, with the edges that stay. -/
def setEdges (pn : InstId) (kept : List (BlockId × Value)) (i : Inst) : Inst :=
  if i.id = pn then { i with incoming := kept.map Prod.fst, operands := kept.map Prod.snd } else i

section Stages
variable {M : Module}

theorem setEdges_id (pn : InstId) (kept : List (BlockId × Value)) (i : Inst) : (setEdges pn kept i).id = i.id := by
  unfold setEdges
  split <;> rfl

/- Some value gives way to the instruction with the next number. -/
theorem replaceUsesOfWith_below (hM : M.WF) (w : Value) (t : Ty) {i : Inst} (hi : i ∈ M.insts) :
    ∀ v ∈ (i.replaceUsesOfWith w (.inst M.nextId t)).operands, v.below (M.nextId + 1) := by
  intro v hv
  obtain ⟨u, hu, rfl⟩ := List.mem_map.mp hv
  split
  · exact Nat.lt_succ_self M.nextId
  · exact (hM.operands_below i hi u hu).mono (Nat.le_succ _)

theorem replaceAllUsesWith_wf (hM : M.WF) (w : Value) (t : Ty) :
    (({ M with nextId := M.nextId + 1 } : Module).replaceAllUsesWith w (.inst M.nextId t)).WF := by
  have hnext : ({ M with nextId := M.nextId + 1 } : Module).WF := wf_of_funcs hM rfl (Nat.le_succ _)
  refine mapBlocks_wf hnext (Block.mapInsts (Inst.replaceUsesOfWith w (.inst M.nextId t))) (fun _ => rfl)
    (mapInsts_ids fun _ => rfl) fun b hb i hi v hv => ?_
  obtain ⟨j, hj, rfl⟩ := List.mem_map.mp hi
  exact replaceUsesOfWith_below hM w t (List.mem_flatMap.mpr ⟨b, hb, hj⟩) v hv

theorem setEdges_wf (hM : M.WF) (bs : List BlockId) (pn : InstId) {kept : List (BlockId × Value)}
    (hkept : ∀ e ∈ kept, e.2.below M.nextId) : (M.mapIn bs (Block.mapInsts (setEdges pn kept))).WF := by
  refine mapIn_wf hM bs (setEdges pn kept) (setEdges_id pn kept) fun i hi v hv => ?_
  unfold setEdges at hv
  split at hv
  · obtain ⟨e, he, rfl⟩ := List.mem_map.mp hv
    exact hkept e he
  · exact hM.operands_below i hi v hv

/- The next number is still fresh. -/
theorem nextId_fresh (hM : M.WF) (w : Value) (t : Ty) (bs : List BlockId) (pn : InstId)
    (kept : List (BlockId × Value)) :
    ∀ i ∈ ((({ M with nextId := M.nextId + 1 } : Module).replaceAllUsesWith w (.inst M.nextId t)).mapIn bs
      (Block.mapInsts (setEdges pn kept))).insts, i.id ≠ M.nextId := by
  intro i hi he
  have hids := (mapIn_instIds (M := ({ M with nextId := M.nextId + 1 } : Module).replaceAllUsesWith w (.inst M.nextId t))
    (setEdges_id pn kept) bs).trans (mapBlocks_instIds (mapInsts_ids fun _ => rfl))
  obtain ⟨j, hj, hji⟩ := List.mem_map.mp (hids ▸ List.mem_map_of_mem (f := Inst.id) hi)
  have hlt : j.id < M.nextId := hM.insts_lt j hj
  omega

theorem severed_blockIds (M : Module) (v w : Value) (bs : List BlockId) (pn : InstId) (kept : List (BlockId × Value))
    (new : BlockId) (phi : Inst) :
    (((M.replaceAllUsesWith v w).mapIn bs (Block.mapInsts (setEdges pn kept))).mapIn [new]
      (consInst phi)).blocks.map Block.id = M.blocks.map Block.id := by
  have hcons : ∀ b, (consInst phi b).id = b.id := fun _ => rfl
  have hedges : ∀ b : Block, (b.mapInsts (setEdges pn kept)).id = b.id := fun _ => rfl
  rw [mapIn_ids hcons, mapIn_ids hedges, Module.replaceAllUsesWith, mapBlocks_blocks, List.map_map]
  rfl

end Stages

theorem severPHI_wf {oldPred newBB : BlockId} {ce ce' : CodeExtractor} {M M' : Module} {pn : InstId}
    (hM : M.WF) (h : severPHI oldPred newBB (ce, M) pn = some (ce', M')) :
    M'.WF ∧ SameSets ce ce' ∧ ce'.blocks = ce.blocks ∧
      M'.blocks.map Block.id = M.blocks.map Block.id ∧
      M'.funcs.map Function.id = M.funcs.map Function.id := by
  obtain ⟨PN, moved, kept, hPN, hmoved, hkept, rfl, rfl⟩ := severPHI_inv h
  have hPNm : PN ∈ M.insts := inst?_mem hPN
  have hedge : ∀ e ∈ PN.incoming.zip (PN.replaceUsesOfWith PN.val (.inst M.nextId PN.ty)).operands,
      e.2.below (M.nextId + 1) := fun e he =>
    replaceUsesOfWith_below hM PN.val PN.ty hPNm e.2 (List.of_mem_zip he).2
  have hkeptlt : ∀ e ∈ kept, e.2.below (M.nextId + 1) := by
    intro e he
    rw [hkept] at he
    exact hedge e (List.mem_of_mem_filter he)
  have h1 := replaceAllUsesWith_wf hM PN.val PN.ty
  have h2 := setEdges_wf h1 [oldPred] pn hkeptlt
  have hfresh := nextId_fresh hM PN.val PN.ty [oldPred] pn kept
  have h3 := insertFront_wf newBB ⟨M.nextId, .phi, PN.ty, PN.val :: moved.map Prod.snd,
    oldPred :: moved.map Prod.fst, []⟩ h2 hfresh (Nat.lt_succ_self _) fun v hv => by
      rcases List.mem_cons.mp hv with rfl | hv
      · exact Nat.lt_succ_of_lt (hM.insts_lt PN hPNm)
      · obtain ⟨e, he, rfl⟩ := List.mem_map.mp hv
        rw [hmoved] at he
        exact hedge e (List.mem_of_mem_filter he)
  refine ⟨wf_of_funcs h3 rfl (Nat.le_refl _), ⟨rfl, rfl, rfl, rfl, rfl, rfl, rfl, rfl, rfl⟩, rfl, ?_, ?_⟩
  · exact severed_blockIds M PN.val (.inst M.nextId PN.ty) [oldPred] pn kept newBB _
  · simp only [Module.mapIn, Module.mapBlocks, Module.replaceAllUsesWith, List.map_map]
    rfl

theorem splitBlock_mem {M : Module} (hM : M.WF) {old : BlockId} (pt : InstId)
    (hold : ∃ x ∈ M.blocks, x.id = old) (n : BlockId) :
    (∃ x ∈ (M.splitBlock old pt).1.blocks, x.id = n) ↔ (∃ x ∈ M.blocks, x.id = n) ∨ n = M.nextId := by
  obtain ⟨b, hb, rfl⟩ := hold
  have hp := (splitBlock_perm hM.toIds hb pt).1.mem_iff (a := n)
  simp only [List.mem_cons, List.mem_map] at hp
  rw [hp, or_comm]

theorem latches_wf {M : Module} (hM : M.WF) (latches : List BlockId) (src dst : BlockId) :
    (M.mapIn latches (Block.mapInsts (Inst.replaceSuccOfWith src dst))).WF :=
  mapIn_wf hM latches _ (fun _ => rfl) hM.operands_below

/-- The ways through `severSplitPHINodes`. -/
theorem severSplitPHINodes_inv {ce ce' : CodeExtractor} {M M' : Module} {header header' : BlockId}
    (h : severSplitPHINodes ce M header = some (ce', M', header')) :
    ∃ hb, M.block? header = some hb ∧
      ((severs M ce.blocks hb = none ∧ ce' = ce ∧ M' = M ∧ header' = header) ∨
        ∃ n first, severs M ce.blocks hb = some n ∧ hb.insts[hb.firstNonPHI]? = some first ∧
          header' = M.nextId ∧
          let ce₁ := { ce with blocks := (ce.blocks.remove header).insert M.nextId }
          let M₁ := (M.splitBlock header first.id).1
          ((n = 0 ∧ ce' = ce₁ ∧ M' = M₁) ∨
            n ≠ 0 ∧ ∃ oldPred latches, M₁.block? header = some oldPred ∧
              (oldPred.phis.map Inst.id).foldlM (severPHI header M.nextId)
                (ce₁, M₁.mapIn latches (Block.mapInsts (Inst.replaceSuccOfWith header M.nextId))) =
              some (ce', M'))) := by
  unfold severSplitPHINodes at h
  obtain ⟨hb, hfind, h⟩ := Option.bind_eq_some_iff.mp h
  refine ⟨hb, hfind, ?_⟩
  split at h
  · next hsev =>
    cases h
    exact .inl ⟨hsev, rfl, rfl, rfl⟩
  · next n hsev =>
    obtain ⟨first, hfirst, h⟩ := Option.bind_eq_some_iff.mp h
    dsimp only at h
    split at h
    · next hn =>
      cases h
      exact .inr ⟨n, first, hsev, hfirst, rfl, .inl ⟨hn, rfl, rfl⟩⟩
    · next hn =>
      obtain ⟨oldPred, hold, h⟩ := Option.bind_eq_some_iff.mp h
      obtain ⟨pn, -, h⟩ := Option.bind_eq_some_iff.mp h
      obtain ⟨⟨ce₂, M₂⟩, hfold, h⟩ := Option.bind_eq_some_iff.mp h
      cases h
      exact .inr ⟨n, first, hsev, hfirst, rfl, .inr ⟨hn, oldPred, _, hold, hfold⟩⟩

/- What the split makes, and redirecting latches and moving PHI edges keep, a finished run has. -/
theorem severSplitPHINodes_run {P : CodeExtractor → Module → Prop} {ce ce' : CodeExtractor} {M M' : Module}
    {header header' : BlockId} (h : severSplitPHINodes ce M header = some (ce', M', header'))
    (hsplit : ∀ hb first, M.block? header = some hb → hb.insts[hb.firstNonPHI]? = some first →
      P { ce with blocks := (ce.blocks.remove header).insert M.nextId } (M.splitBlock header first.id).1)
    (hlatches : ∀ c N latches, P c N →
      P c (N.mapIn latches (Block.mapInsts (Inst.replaceSuccOfWith header M.nextId))))
    (hsever : ∀ c N c' N' pn, P c N → severPHI header M.nextId (c, N) pn = some (c', N') → P c' N') :
    (ce' = ce ∧ M' = M ∧ header' = header) ∨ (header' = M.nextId ∧ P ce' M') := by
  obtain ⟨hb, hfind, ⟨-, rfl, rfl, rfl⟩ | ⟨n, first, -, hfirst, rfl, hrun⟩⟩ := severSplitPHINodes_inv h
  · exact .inl ⟨rfl, rfl, rfl⟩
  · have h0 := hsplit hb first hfind hfirst
    rcases hrun with ⟨-, rfl, rfl⟩ | ⟨-, oldPred, latches, -, hfold⟩
    · exact .inr ⟨rfl, h0⟩
    · refine .inr ⟨rfl, ?_⟩
      exact foldlM_preserves (P := fun st : CodeExtractor × Module => P st.1 st.2) _
        (fun pn st st' _ hst hstep => hsever st.1 st.2 st'.1 st'.2 pn hst hstep) (hlatches _ _ latches h0) hfold

/- What `cloneCodeRegion` relies on when it has severed the header. -/
structure SeveredFrom (ce ce' : CodeExtractor) (M M' : Module) (header' : BlockId) : Prop where
  wf : M'.WF
  sets : SameSets ce ce'
  blocks : ∀ b ∈ ce'.blocks.elems, ∃ x ∈ M'.blocks, x.id = b
  funcs : M'.funcs.map Function.id = M.funcs.map Function.id
  header : header' ∈ ce'.blocks

theorem severSplitPHINodes_from {ce ce' : CodeExtractor} {M M' : Module} {header header' : BlockId}
    (hM : M.WF) (hbs : ∀ b ∈ ce.blocks.elems, ∃ x ∈ M.blocks, x.id = b) (hh : header ∈ ce.blocks)
    (h : severSplitPHINodes ce M header = some (ce', M', header')) :
    SeveredFrom ce ce' M M' header' := by
  let bs := (ce.blocks.remove header).insert M.nextId
  have hrun := severSplitPHINodes_run (P := fun c N => N.WF ∧ SameSets ce c ∧ c.blocks = bs ∧
    (∀ b ∈ bs.elems, ∃ x ∈ N.blocks, x.id = b) ∧ N.funcs.map Function.id = M.funcs.map Function.id) h ?_ ?_ ?_
  · rcases hrun with ⟨rfl, rfl, rfl⟩ | ⟨rfl, hwf, hsets, hblocks, hex, hfuncs⟩
    · exact ⟨hM, .refl ce', hbs, rfl, hh⟩
    · exact ⟨hwf, hsets, hblocks ▸ hex, hfuncs, hblocks ▸ SetVector.mem_insert.mpr (.inr rfl)⟩
  · intro hb first hfind _
    refine ⟨splitBlock_wf hM header first.id, ⟨rfl, rfl, rfl, rfl, rfl, rfl, rfl, rfl, rfl⟩, rfl, ?_,
      splitBlock_funcs M header first.id⟩
    intro b hbm
    rw [splitBlock_mem hM first.id ⟨hb, block?_some hfind⟩]
    rcases SetVector.mem_insert.mp hbm with hbm | rfl
    · exact .inl (hbs b (SetVector.mem_remove.mp hbm).2)
    · exact .inr rfl
  · rintro c N latches ⟨h1, h2, h3, h4, h5⟩
    refine ⟨latches_wf h1 latches header M.nextId, h2, h3, fun b hbm => ?_, ?_⟩
    · obtain ⟨x, hx, rfl⟩ := h4 b hbm
      have hids := mapIn_ids (M := N) (g := Block.mapInsts (Inst.replaceSuccOfWith header M.nextId))
        (fun _ => rfl) latches
      exact List.mem_map.mp (hids ▸ List.mem_map_of_mem hx)
    · rw [← h5]
      simp only [Module.mapIn, Module.mapBlocks, List.map_map]
      rfl
  · rintro c N c' N' pn ⟨h1, h2, h3, h4, h5⟩ hstep
    obtain ⟨g1, g2, g3, g4, g5⟩ := severPHI_wf h1 hstep
    refine ⟨g1, h2.trans g2, g3.trans h3, fun b hbm => ?_, g5.trans h5⟩
    obtain ⟨x, hx, rfl⟩ := h4 b hbm
    exact List.mem_map.mp (g4 ▸ List.mem_map_of_mem hx)

/- One split of a return keeps the module in order. -/
theorem splitReturnBlock_from {M : Module} (hM : M.WF) (b : BlockId) :
    (splitReturnBlock M b).WF ∧
      (splitReturnBlock M b).funcs.map Function.id = M.funcs.map Function.id ∧
      ∀ n, (∃ x ∈ M.blocks, x.id = n) → ∃ x ∈ (splitReturnBlock M b).blocks, x.id = n := by
  unfold splitReturnBlock
  split
  · next ri hri =>
    split
    · obtain ⟨x, hx, -⟩ := Option.bind_eq_some_iff.mp hri
      refine ⟨splitBlock_wf hM b ri.id, splitBlock_funcs M b ri.id, ?_⟩
      intro n hn
      exact (splitBlock_mem hM ri.id ⟨x, block?_some hx⟩ n).mpr (.inl hn)
    · exact ⟨hM, rfl, fun n hn => hn⟩
  · exact ⟨hM, rfl, fun n hn => hn⟩

theorem splitReturnBlocks_from {M : Module} (hM : M.WF) (blocks : SetVector BlockId) :
    (splitReturnBlocks blocks M).WF ∧
      (splitReturnBlocks blocks M).funcs.map Function.id = M.funcs.map Function.id ∧
      ∀ n, (∃ x ∈ M.blocks, x.id = n) → ∃ x ∈ (splitReturnBlocks blocks M).blocks, x.id = n := by
  refine foldl_preserves (P := fun N : Module => N.WF ∧ N.funcs.map Function.id = M.funcs.map Function.id ∧
    ∀ n, (∃ x ∈ M.blocks, x.id = n) → ∃ x ∈ N.blocks, x.id = n) _ ?_ ⟨hM, rfl, fun n hn => hn⟩
  intro b N _ hN
  obtain ⟨h1, h2, h3⟩ := splitReturnBlock_from hN.1 b
  exact ⟨h1, h2.trans hN.2.1, fun n hn => h3 n (hN.2.2 n hn)⟩

/-- A call of `cloneCodeRegion` that makes a function: what it severed, and the run on the rest. -/
structure Extraction (ce : CodeExtractor) (M : Module) (ce' : CodeExtractor) where
  header : BlockId
  header_head : ce.blocks.elems.head? = some header
  old : Function
  old_eq : M.parent? header = some old
  severed : Module
  header' : BlockId
  severed_eq : severSplitPHINodes ce M header = some (ce', severed, header')
  from_ : SeveredFrom ce ce' M severed header'
  cloned : Cloned ce' (splitReturnBlocks ce'.blocks severed) header' old
  erased : eraseAll cloned.beforeErase (toRemove (cloned.functionWith rewriteBlock)) =
    some cloned.result

theorem cloneCodeRegion_extraction {ce ce' : CodeExtractor} {M M' : Module} {f : FuncId}
    (hM : M.WF) (hbs : ∀ b ∈ ce.blocks.elems, ∃ x ∈ M.blocks, x.id = b)
    (h : cloneCodeRegion ce M = some (ce', M', some f)) :
    ∃ x : Extraction ce M ce', M' = x.cloned.result ∧ f = x.cloned.n := by
  unfold cloneCodeRegion at h
  split at h
  · cases h
  · next header hheader =>
    obtain ⟨old, hold, h⟩ := Option.bind_eq_some_iff.mp h
    split at h
    · cases h
    · obtain ⟨⟨ce₁, M₁, header'⟩, hsever, h⟩ := Option.bind_eq_some_iff.mp h
      obtain ⟨⟨M₂, f'⟩, hclone, h⟩ := Option.bind_eq_some_iff.mp h
      cases h
      have hmem : header ∈ ce.blocks := List.mem_of_mem_head? hheader
      have hfrom := severSplitPHINodes_from hM hbs hmem hsever
      obtain ⟨hwf, hfuncs, hkeep⟩ := splitReturnBlocks_from hfrom.wf ce'.blocks
      have hex : ∀ b ∈ ce'.blocks.elems,
          ∃ x ∈ (splitReturnBlocks ce'.blocks M₁).blocks, x.id = b :=
        fun b hb => hkeep b (hfrom.blocks b hb)
      have hf : old.id ∈ (splitReturnBlocks ce'.blocks M₁).funcs.map Function.id := by
        rw [hfuncs, hfrom.funcs]
        exact List.mem_map_of_mem (List.mem_of_find?_eq_some hold)
      obtain ⟨k, hk, herase⟩ := cloneSevered_cloned hwf hf hex hclone
      cases hk
      exact ⟨⟨header, hheader, old, hold, M₁, header', hsever, hfrom, k, herase⟩, rfl, rfl⟩

end Atrox
