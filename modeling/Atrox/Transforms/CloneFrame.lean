import Atrox.Transforms.IteratorInput

/-!
# What cloning leaves alone

A run of `cloneLoop` that extracts nothing changes nothing, and one that has no header to
split only adds the new function.
-/

namespace Atrox
open IR Lib

/- What the LLVM verifier promises of entry blocks and returns. -/
structure ValidCFG (M : Module) : Prop where
  entry : ∀ b, M.isEntryBlock b = true → ∀ p ∈ M.blocks, b ∉ p.succs
  ret : ∀ i ∈ M.insts, i.op = .ret → i.succs = []

/- Blocks of a loop: they exist, and the loop enters and leaves each of them. -/
structure LoopBlocks (M : Module) (rpo : List BlockId) : Prop where
  exist : ∀ b ∈ rpo, ∃ x ∈ M.blocks, x.id = b
  pred : ∀ b ∈ rpo, ∃ p ∈ M.blocks, b ∈ p.succs
  succ : ∀ x ∈ M.blocks, x.id ∈ rpo → x.succs ≠ []

theorem insertBlocks_none {bs : List BlockId} {s r : SetVector BlockId}
    (h : insertBlocks none s bs = some r) : r.elems = s.elems ++ bs := by
  induction bs generalizing s with
  | nil =>
    cases h
    rw [List.append_nil]
  | cons c bs ih =>
    unfold insertBlocks at h
    simp only [Option.any_none, Bool.false_eq_true, if_false] at h
    split at h
    · cases h
    · next hc =>
      have hc' : c ∉ s.elems := hc
      rw [ih h, SetVector.insert_elems, if_neg hc', List.append_assoc]
      rfl

/- A region that is not refused has the blocks the selector chose. -/
theorem preparedExtractor_blocks {a : CloneLoopArgs} {M : Module} {info : IteratorInfo}
    {ce : CodeExtractor} (h : preparedExtractor a M info = some ce) :
    ce.blocks.elems = orderBlocks a.rpo a.selected ∨ ce.blocks.elems = [] := by
  obtain ⟨ce₀, h0, hp⟩ := Option.bind_eq_some_iff.mp h
  rw [prepare_blocks hp]
  obtain ⟨blocks, hb, rfl⟩ := Option.map_eq_some_iff.mp h0
  unfold buildExtractionBlockSet at hb
  split at hb
  · cases hb
  · obtain ⟨result, hr, rfl⟩ := Option.map_eq_some_iff.mp hb
    dsimp only
    split
    · exact .inl (insertBlocks_none hr)
    · exact .inr rfl

theorem splitReturnBlock_self {M : Module} {b : BlockId}
    (h : ∀ x, M.block? b = some x → ∀ ri, x.terminator? = some ri → ri.op ≠ .ret) :
    splitReturnBlock M b = M := by
  unfold splitReturnBlock
  split
  · next ri hri =>
    obtain ⟨x, hx, hri⟩ := Option.bind_eq_some_iff.mp hri
    rw [if_neg (h x hx ri hri)]
  · rfl

theorem splitReturnBlocks_self {M : Module} {blocks : SetVector BlockId}
    (h : ∀ b ∈ blocks, ∀ x, M.block? b = some x → ∀ ri, x.terminator? = some ri → ri.op ≠ .ret) :
    splitReturnBlocks blocks M = M := by
  refine foldl_preserves (P := fun N => N = M) _ ?_ rfl
  rintro b N hb rfl
  exact splitReturnBlock_self (h b hb)

/- With at most one edge from outside the header stays whole. -/
theorem severs_none {M : Module} {blocks : SetVector BlockId} {hb : Block}
    (hentry : M.isEntryBlock hb.id = false)
    (h : ∀ pn ∈ hb.phis.head?, numPredsOutsideRegion blocks pn ≤ 1) : severs M blocks hb = none := by
  unfold severs
  rw [hentry]
  simp only [Bool.false_eq_true, if_false]
  split
  · rfl
  · next pn hpn => rw [if_pos (h pn hpn)]

theorem severSplitPHINodes_none {ce ce' : CodeExtractor} {M M' : Module} {header header' : BlockId}
    (h : severSplitPHINodes ce M header = some (ce', M', header'))
    (hs : ∀ hb, M.block? header = some hb → severs M ce.blocks hb = none) :
    ce' = ce ∧ M' = M ∧ header' = header := by
  unfold severSplitPHINodes at h
  obtain ⟨hb, hfind, h⟩ := Option.bind_eq_some_iff.mp h
  rw [hs hb hfind] at h
  cases h
  exact ⟨rfl, rfl, rfl⟩

theorem loopBlocks_terminator {M : Module} {rpo : List BlockId} (hcfg : ValidCFG M)
    (hloop : LoopBlocks M rpo) {b : BlockId} (hb : b ∈ rpo) {x : Block} (hx : M.block? b = some x)
    {ri : Inst} (hri : x.terminator? = some ri) : ri.op ≠ .ret := by
  obtain ⟨hxm, rfl⟩ := block?_some hx
  intro hret
  have him : ri ∈ M.insts := List.mem_flatMap.mpr ⟨x, hxm, List.mem_of_getLast? hri⟩
  have hsuccs : x.succs = ri.succs := by
    rw [Block.succs, hri]
    rfl
  exact hloop.succ x hxm hb (hsuccs.trans (hcfg.ret ri him hret))

theorem loopBlocks_entry {M : Module} {rpo : List BlockId} (hcfg : ValidCFG M)
    (hloop : LoopBlocks M rpo) {b : BlockId} (hb : b ∈ rpo) : M.isEntryBlock b = false := by
  obtain ⟨p, hp, hpb⟩ := hloop.pred b hb
  cases he : M.isEntryBlock b with
  | false => rfl
  | true => exact absurd hpb (hcfg.entry b he p hp)

/- Early exits change nothing; an extraction that splits nothing adds one function. -/
theorem cloneLoop_frame {a : CloneLoopArgs} {M : Module} {storeInfo : List FunctionArgSpec}
    {r : CloneLoopResult} (hM : M.WF) (hcfg : ValidCFG M) (hloop : LoopBlocks M a.rpo)
    (h : cloneLoop a M storeInfo = some r) :
    (r.hasChanged = false → r.M = M ∧ r.storeInfo = storeInfo) ∧
    (r.hasChanged = true →
      (∀ header ∈ (orderBlocks a.rpo a.selected).head?, ∀ hb ∈ M.block? header, ∀ pn ∈ hb.phis.head?,
        (pn.incoming.countP fun b => b ∉ orderBlocks a.rpo a.selected) ≤ 1) →
      ∃ F, r.M.funcs = M.funcs ++ [F]) := by
  rcases cloneLoop_cases h with rfl | ⟨info, ce, ce', M', f, hx⟩
  · refine ⟨fun _ => ⟨rfl, rfl⟩, fun hc => ?_⟩
    cases hc
  obtain ⟨hchanged, hrM, -⟩ := recordInfo_spec hx.recorded
  refine ⟨fun hc => absurd (hchanged.symm.trans hc) (by decide), fun _ hedges => ?_⟩
  obtain ⟨-, -, -, -, -, hsub⟩ := preparedExtractor_spec hx.prepared
  have hbs : ∀ b ∈ ce.blocks.elems, ∃ x ∈ M.blocks, x.id = b := fun b hb => hloop.exist b (hsub b hb).1
  obtain ⟨x, hM', rfl⟩ := cloneCodeRegion_extraction hM (by exact hbs) hx.cloned
  have hhead : ce.blocks.elems.head? = some x.header := x.header_head
  have hmem : x.header ∈ ce.blocks := List.mem_of_mem_head? hhead
  have hblocks : ce.blocks.elems = orderBlocks a.rpo a.selected := by
    rcases preparedExtractor_blocks hx.prepared with he | he
    · exact he
    · rw [he] at hhead
      cases hhead
  have hsevers : ∀ hb, M.block? x.header = some hb → severs M ce.blocks hb = none := by
    intro hb hfind
    obtain ⟨-, hid⟩ := block?_some hfind
    refine severs_none ?_ fun pn hpn => ?_
    · rw [hid]
      exact loopBlocks_entry hcfg hloop (hsub _ hmem).1
    · have hfirst : (orderBlocks a.rpo a.selected).head? = some x.header :=
        (congrArg List.head? hblocks).symm.trans hhead
      have hcount := hedges x.header hfirst hb hfind pn hpn
      simp only [numPredsOutsideRegion, SetVector.mem_def, hblocks]
      exact hcount
  obtain ⟨hce, hsev, -⟩ := severSplitPHINodes_none x.severed_eq hsevers
  have hblk : ce'.blocks = ce.blocks := by rw [hce]
  have hret : splitReturnBlocks ce'.blocks x.severed = M := by
    rw [hsev, hblk]
    exact splitReturnBlocks_self fun b hb y hy ri hri =>
      loopBlocks_terminator hcfg hloop (hsub b hb).1 hy hri
  refine ⟨x.cloned.newFunction, ?_⟩
  rw [hrM, hM']
  have hfuncs : (splitReturnBlocks ce'.blocks x.severed).funcs = M.funcs := by rw [hret]
  exact congrArg (· ++ [x.cloned.newFunction]) hfuncs

theorem sumLoop_validCFG : ValidCFG sumLoop := by
  constructor
  · intro b hb
    have he : b = 0 := by
      simpa [Module.isEntryBlock, sumLoop, eq_comm] using hb
    subst he
    decide
  · decide

theorem sumLoop_loopBlocks : LoopBlocks sumLoop sumArgs.rpo :=
  ⟨by decide, by decide, by decide⟩

theorem cloneLoop_frame_sumLoop : ∃ r F, cloneLoop sumArgs sumLoop [] = some r ∧
    r.hasChanged = true ∧ r.M.funcs = sumLoop.funcs ++ [F] := by
  have hrun : (cloneLoop sumArgs sumLoop []).any CloneLoopResult.hasChanged = true := by decide
  obtain ⟨r, hr, hc⟩ := (Option.any_eq_true _ _).mp hrun
  obtain ⟨-, hadd⟩ := cloneLoop_frame sumLoop_wf sumLoop_validCFG sumLoop_loopBlocks hr
  obtain ⟨F, hF⟩ := hadd hc (by decide)
  exact ⟨r, F, hr, hc, hF⟩

end Atrox
