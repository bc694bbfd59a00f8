import Atrox.Transforms.GlobalOutputs
import Atrox.Transforms.RegionSimulation
import Atrox.Transforms.ResultModule
import Atrox.Transforms.SeverBehaviour

/-!
# Cloning keeps the behaviour

Beyond the splits of the header and of the returns, cloning a region leaves the functions of the
module alone: it puts one more behind them.
-/

namespace Atrox
open IR Lib

section Returns
variable {M : Module} {B : BlockId → Prop}

/- `N` has the functions of `M`, doing what they did from the blocks of `B`, and behind them `fs`. -/
structure Grown (M : Module) (B : BlockId → Prop) (N : Module) (B' : BlockId → Prop) (fs : List Function) : Prop
    extends Preserves M B N B' where
  wf : N.WF
  face : N.funcs.map Function.face = (M.funcs ++ fs).map Function.face
  inside : ∀ gs, (∀ g ∈ gs, g ∈ M.funcs.map Function.id) → Inside gs B M → Inside gs B' N
  confined : ∀ gs, Confined gs B M → Confined gs B' N
  spares : Spares M B N B'
  usesInside : UsesInside M B → UsesInside N B'

theorem Grown.refl (hM : M.WF) (hv : ValidOn M B) : Grown M B M B [] where
  toPreserves := .refl hv
  wf := hM
  face := by rw [List.append_nil]
  inside := fun _ _ h => h
  confined := fun _ h => h
  spares := .refl
  usesInside := id

/- The faces tell the functions. -/
theorem ids_of_face {fs gs : List Function} (h : fs.map Function.face = gs.map Function.face) :
    fs.map Function.id = gs.map Function.id := by
  have hproj : ∀ hs : List Function, hs.map Function.id = (hs.map Function.face).map Prod.fst := by
    intro hs
    rw [List.map_map]
    rfl
  rw [hproj, hproj, h]

theorem Grown.ids {N : Module} {B' : BlockId → Prop} {fs : List Function} (h : Grown M B N B' fs) :
    N.funcs.map Function.id = M.funcs.map Function.id ++ fs.map Function.id := by
  rw [ids_of_face h.face, List.map_append]

theorem Grown.trans {N K : Module} {B' B'' : BlockId → Prop} {fs gs : List Function} (h : Grown M B N B' fs)
    (h' : Grown N B' K B'' gs) : Grown M B K B'' (fs ++ gs) where
  toPreserves := h.toPreserves.trans h'.toPreserves
  wf := h'.wf
  face := by
    rw [h'.face, List.map_append, h.face, ← List.map_append, List.append_assoc]
  inside := by
    intro ks hks hin
    refine h'.inside ks (fun k hk => ?_) (h.inside ks hks hin)
    rw [h.ids]
    exact List.mem_append_left _ (hks k hk)
  confined := fun ks hin => h'.confined ks (h.confined ks hin)
  spares := h.spares.trans h'.spares
  usesInside := h'.usesInside ∘ h.usesInside

/- One round of `splitReturnBlocks`. -/
theorem splitReturnBlock_grown (hM : M.WF) (hv : ValidOn M B) {n : BlockId} (hn : B n) :
    ∃ B', Grown M B (splitReturnBlock M n) B' [] := by
  unfold splitReturnBlock
  split
  · next ri hri =>
    split
    · next hret =>
      obtain ⟨b, hb, hlast⟩ := Option.bind_eq_some_iff.mp hri
      obtain ⟨hbm, rfl⟩ := block?_some hb
      obtain ⟨xs, ys, hsplit⟩ := List.append_of_mem (List.mem_of_getLast? hlast)
      have hphi : ri.isPHI = false := by simp [Inst.isPHI, hret]
      have hpad : ri.op.isEHPad = false := by rw [hret]; rfl
      refine ⟨fun m => B m ∨ m = M.nextId, splitBlock_preserves hM.toIds hv hbm hn hsplit hphi hpad,
        splitBlock_wf hM b.id ri.id, ?_, fun _ _ hin => hin.splitBlock hM.toIds ri.id,
        fun _ hcon => hcon.splitBlock hM.toIds hn ri.id,
        splitBlock_spares hM hv hbm hn hsplit hphi hpad,
        fun huse => splitBlock_usesInside hM huse hbm hn hsplit hphi hpad⟩
      rw [List.append_nil]
      exact splitBlock_face M b.id ri.id
    · exact ⟨B, .refl hM hv⟩
  · exact ⟨B, .refl hM hv⟩

theorem splitReturnBlocks_grown (hM : M.WF) (hv : ValidOn M B) {blocks : SetVector BlockId}
    (hin : ∀ b ∈ blocks, B b) : ∃ B', Grown M B (splitReturnBlocks blocks M) B' [] := by
  refine foldl_preserves (P := fun N => ∃ B', Grown M B N B' []) _ ?_ ⟨B, .refl hM hv⟩
  intro b N hb hN
  obtain ⟨B', h⟩ := hN
  obtain ⟨B'', h'⟩ := splitReturnBlock_grown h.wf h.valid (h.sub b (hin b hb))
  exact ⟨B'', h.trans h'⟩

end Returns

section Extended
variable {M : Module} {B : BlockId → Prop} {nf : Function} {n : Nat}

/- Blocks of `B` are found where they were. -/
theorem extended_old (hN : (extended M nf n).WF) (hv : ValidOn M B) {x : Block} (hx : x ∈ (extended M nf n).blocks)
    (hB : B x.id) : x ∈ M.blocks := by
  obtain ⟨y, hy, hid⟩ := hv.exist x.id hB
  have hy' : y ∈ (extended M nf n).blocks := by
    simp only [extended, Module.blocks, List.flatMap_append]
    exact List.mem_append_left _ hy
  obtain rfl : y = x := List.inj_on_of_nodup_map hN.blocks_nodup hy' hx hid
  exact hy

theorem extended_mem {x : Block} (hx : x ∈ M.blocks) : x ∈ (extended M nf n).blocks := by
  simp only [extended, Module.blocks, List.flatMap_append]
  exact List.mem_append_left _ hx

/- A function behind the others changes nothing for them. -/
theorem extended_preserves (hN : (extended M nf n).WF) (hM : M.WF) (hv : ValidOn M B) :
    Preserves M B (extended M nf n) B := by
  have hold : ∀ {x}, x ∈ (extended M nf n).blocks → B x.id → x ∈ M.blocks := fun hx hB => extended_old hN hv hx hB
  have hcode : ∀ m, B m → (extended M nf n).code m = M.code m := by
    intro m hm
    obtain ⟨x, hx, rfl⟩ := hv.exist m hm
    rw [code_block hM.toIds hx, code_block hN.toIds (extended_mem hx)]
  refine ⟨⟨?_, ?_, ?_, ?_, ?_, ?_⟩, fun _ hm => hm, fun m hm => ⟨fun S vals mem _ => ?_⟩⟩
  · intro m hm
    obtain ⟨x, hx, hid⟩ := hv.exist m hm
    exact ⟨x, extended_mem hx, hid⟩
  · exact fun x hx hB => hv.succ x (hold hx hB) hB
  · intro x hx hB i hi hphi p
    rw [hv.phi x (hold hx hB) hB i hi hphi p]
    constructor
    · rintro ⟨hp, q, hq, hqp, hs⟩
      exact ⟨hp, q, extended_mem hq, hqp, hs⟩
    · rintro ⟨hp, q, hq, rfl, hs⟩
      exact ⟨hp, q, hold hq hp, rfl, hs⟩
  · exact fun x hx hB => hv.arity x (hold hx hB) hB
  · exact fun x hx hB => hv.phisFirst x (hold hx hB) hB
  · exact fun x hx hB => hv.last x (hold hx hB) hB
  · refine sameTraces_within hcode ?_ S hm none vals mem
    intro k is hk hcode' i hi hterm s hs
    obtain ⟨x, hx, rfl⟩ := hv.exist k hk
    rw [code_block hM.toIds hx] at hcode'
    obtain rfl := Option.some.inj hcode'
    -- the terminator is the last instruction, so these are the successors of the block
    have hlast : x.insts.getLast? = some i := by
      rcases List.eq_nil_or_concat x.insts with hnil | ⟨xs, t, hsplit⟩
      · rw [hnil] at hi
        cases hi
      · rw [List.concat_eq_append] at hsplit
        have hfront := hv.last x hx hk
        rw [hsplit, List.dropLast_concat] at hfront
        rw [hsplit] at hi
        rcases List.mem_append.mp hi with hi | hi
        · rw [hfront i hi] at hterm
          cases hterm
        · rw [hsplit, List.mem_singleton.mp hi]
          exact List.getLast?_concat
    refine hv.succ x hx hk s ?_
    rw [Block.succs, Block.terminator?, hlast]
    exact hs

/- It has a number of its own for everything, so it is nothing to the functions aside. -/
theorem extended_spares (hN : (extended M nf n).WF) (hv : ValidOn M B) : Spares M B (extended M nf n) B := by
  intro G hG ha
  refine ⟨List.mem_append_left [nf] hG, ha.blocks, fun i hi j t hop x hx hBx => ?_⟩
  exact ha.operands i hi j t hop x (extended_old hN hv hx hBx) hBx

/- Its blocks are not in `B`. -/
theorem extended_confined (hN : (extended M nf n).WF) (hv : ValidOn M B) {gs : List FuncId} (h : Confined gs B M) :
    Confined gs B (extended M nf n) := by
  intro F hF b hb hBb
  have hbN : b ∈ (extended M nf n).blocks := List.mem_flatMap.mpr ⟨F, hF, hb⟩
  obtain ⟨G, hG, hbG⟩ := List.mem_flatMap.mp (extended_old hN hv hbN hBb)
  obtain rfl := func_unique hN.toIds hF (List.mem_append_left [nf] hG) hb hbG
  exact h F hG b hbG hBb

theorem extended_usesInside (hN : (extended M nf n).WF) (hv : ValidOn M B) (h : UsesInside M B) :
    UsesInside (extended M nf n) B := by
  intro x hx hBx i hi j t hop
  obtain ⟨y, hy, hBy, hj⟩ := h x (extended_old hN hv hx hBx) hBx i hi j t hop
  exact ⟨y, extended_mem hy, hBy, hj⟩

end Extended

section Clone
variable {ce₀ ce ce' : CodeExtractor} {M : Module} {B : BlockId → Prop} {acc : Option (List InstId)}

/- Outputs name what has a number. -/
theorem prepare_outputs_below (hM : M.WF) (hp : ce₀.prepare M = some ce) : ∀ v ∈ ce.outputs, v.below M.nextId := by
  intro v hv
  rw [prepare_outputs hp] at hv
  rcases findAll_outputs hv with ⟨i, hi, rfl, -⟩ | ⟨gep, hgep, hptr⟩
  · exact hM.insts_lt i (regionInsts_sub hM.toIds hi)
  · have hg := regionInsts_sub hM.toIds (globalGeps_mem M ce₀.blocks hgep).1
    exact hM.operands_below gep hg v (List.mem_of_mem_head? hptr)

/- The new function has a number of its own. -/
theorem Extraction.grown (x : Extraction ce M ce') (hM : M.WF) (hv : ValidOn M B) (hin : ∀ b ∈ ce.blocks, B b)
    (hpad : HeaderNoPad M x.header) (hout : ∀ v ∈ ce.outputs, v.below M.nextId) :
    ∃ B', Grown M B x.cloned.result B' [x.cloned.newFunction] := by
  have hheader : x.header ∈ ce.blocks := List.mem_of_mem_head? x.header_head
  obtain ⟨B₁, hp, hblocks, huses, hins⟩ := severSplitPHINodes_preserves hM hv (hin _ hheader) hpad x.severed_eq
  have hsever : Grown M B x.severed B₁ [] := by
    refine ⟨hp, x.from_.wf, ?_, fun gs _ => (hins gs).1, fun gs => (hins gs).2, (hblocks hin).2, huses⟩
    rw [List.append_nil]
    exact severSplitPHINodes_face x.severed_eq
  obtain ⟨B₂, hsplit⟩ := splitReturnBlocks_grown hsever.wf hsever.valid (hblocks hin).1
  have hwf : x.cloned.result.WF := x.cloned.result_wf fun v hvo =>
    (hout v (x.from_.sets.outputs ▸ hvo)).mono x.nextId_le
  refine ⟨B₂, (hsever.trans hsplit).trans ⟨extended_preserves hwf hsplit.wf hsplit.valid, hwf, rfl, ?_,
    fun gs => extended_confined hwf hsplit.valid, extended_spares hwf hsplit.valid,
    extended_usesInside hwf hsplit.valid⟩⟩
  intro gs hgs hin F hF b hb hid
  rcases List.mem_append.mp hF with hF | hF
  · exact hin F hF b hb hid
  · -- no function of that number was there
    obtain ⟨G, hG, he⟩ := List.mem_map.mp (hgs F.id hid)
    rw [List.mem_singleton.mp hF] at he
    have hlt := hsplit.wf.funcs_lt G hG
    have hge := x.cloned.numbers.nextId_ge
    have hn : G.id = x.cloned.n := he
    omega

theorem cloneCodeRegion_grown {M' : Module} {f : FuncId} {bbs : List BlockId} {iterInfo : Option IteratorInfo}
    {LBA : Option LoopBoundsAnalyzer} {DT : Option (BlockId → Bool)} {agg varArgs allocas flatten : Bool}
    (hM : M.WF) (hv : ValidOn M B) (h0 : codeExtractor M bbs iterInfo LBA DT agg varArgs allocas flatten = some ce₀)
    (hbs : ∀ b ∈ bbs, B b) (hp : ce₀.prepare M = some ce)
    (h : cloneCodeRegion { ce with accesses := acc } M = some (ce', M', some f)) :
    ∃ (B' : BlockId → Prop) (F : Function), F.id = f ∧ Grown M B M' B' [F] := by
  have hexist := prepare_exist h0 (fun b hb => hv.exist b (hbs b hb)) hp
  have hexist' : ∀ b ∈ ({ ce with accesses := acc } : CodeExtractor).blocks.elems, ∃ x ∈ M.blocks, x.id = b := hexist
  obtain ⟨x, rfl, rfl⟩ := cloneCodeRegion_extraction hM hexist' h
  have hblocks := prepare_blocks hp
  have hhead : ce.blocks.elems.head? = some x.header := x.header_head
  have hpad : HeaderNoPad M x.header := codeExtractor_noPad h0 (by rw [← hblocks]; exact hhead)
  obtain ⟨B', hg⟩ := x.grown hM hv (fun b hb => hbs b (codeExtractor_blocks h0 b (hblocks ▸ hb))) hpad
    (prepare_outputs_below hM hp : ∀ v ∈ ce.outputs, v.below M.nextId)
  exact ⟨B', x.cloned.newFunction, rfl, hg⟩

/- Cloning a region keeps the functions and what control does from every block, and the module is well formed
when the new function is there. -/
theorem cloneCodeRegion_behaviour {M' : Module} {f : FuncId} {bbs : List BlockId} {iterInfo : Option IteratorInfo}
    {LBA : Option LoopBoundsAnalyzer} {DT : Option (BlockId → Bool)} {agg varArgs allocas flatten : Bool}
    (hM : M.WF) (hv : Verified M) (he : ValidEdges M) (hu : ValidUses M) (ha : PHIsPaired M)
    (h0 : codeExtractor M bbs iterInfo LBA DT agg varArgs allocas flatten = some ce₀)
    (hbs : ∀ b ∈ bbs, ∃ x ∈ M.blocks, x.id = b) (hp : ce₀.prepare M = some ce)
    (h : cloneCodeRegion { ce with accesses := acc } M = some (ce', M', some f)) :
    M'.WF ∧ (∃ F : Function, F.id = f ∧ M'.funcs.map Function.face = M.funcs.map Function.face ++ [F.face]) ∧
      ∀ x ∈ M.blocks, SameBehaviour M M' x.id := by
  obtain ⟨B', F, rfl, hg⟩ := cloneCodeRegion_grown hM (hv.validOn he hu ha) h0 hbs hp h
  refine ⟨hg.wf, ⟨F, rfl, ?_⟩, fun x hx => hg.same x.id ⟨x, hx, rfl⟩⟩
  rw [hg.face, List.map_append]
  rfl

theorem sumLoop_phisPaired : PHIsPaired sumLoop := by
  unfold PHIsPaired
  decide

theorem cloneCodeRegion_behaviour_sumLoop : ∃ (ce ce' : CodeExtractor) (M' : Module) (f : FuncId),
    cloneCodeRegion ce sumLoop = some (ce', M', some f) ∧ M'.WF ∧
    (∃ F : Function, F.id = f ∧ M'.funcs.map Function.face = sumLoop.funcs.map Function.face ++ [F.face]) ∧
      ∀ x ∈ sumLoop.blocks, SameBehaviour sumLoop M' x.id := by
  have hrun : sumReport.isSome = true := by decide
  obtain ⟨⟨ce, ce', M', f, F, ds⟩, hr⟩ := Option.isSome_iff_exists.mp hrun
  obtain ⟨hce, hclone, -, -⟩ := bodyReport_spec hr
  unfold preparedExtractor at hce
  obtain ⟨ce₀, h0, hp⟩ := Option.bind_eq_some_iff.mp hce
  have hclone' : cloneCodeRegion { ce with accesses := ce.accesses } sumLoop = some (ce', M', some f) := hclone
  exact ⟨ce, ce', M', f, hclone, cloneCodeRegion_behaviour sumLoop_wf sumLoop_verified sumLoop_validEdges
    sumLoop_validUses sumLoop_phisPaired h0 (fun b hb => sumLoop_loopBlocks.exist b (List.mem_filter.mp hb).1) hp hclone'⟩

end Clone

end Atrox
