import Atrox.Analysis.Selectors

/-!
# Headers and latches among the selected blocks
-/

namespace Atrox
open IR Lib

/- Neither the header of the loop nor one of its latches. -/
def NoControl (M : Module) (LI : LoopInfo) (l : LoopId) (blocks : List BlockId) : Prop :=
  ∀ b ∈ blocks, LI.headerOf l ≠ some b ∧ b ∉ LI.getLoopLatches M l

section NoControl
variable {M : Module} {LI : LoopInfo} {l : LoopId} {info : BlockId → Bool} {rpoOf : LoopId → List BlockId}

theorem mem_getLoopLatches {h b : BlockId} (hh : LI.headerOf l = some h) :
    b ∈ LI.getLoopLatches M l ↔ b ∈ M.predsOf h ∧ b ∈ LI.blocksOf l := by
  simp only [LoopInfo.getLoopLatches, hh, List.mem_filter, decide_eq_true_eq]

theorem isLoopLatch_iff (hl : l < LI.loops.length) {b : BlockId} (hb : b ∈ LI.blocksOf l) :
    LI.isLoopLatch M l b = true ↔ b ∈ LI.getLoopLatches M l := by
  obtain ⟨h, hh⟩ := LoopInfo.headerOf_some hl
  rw [mem_getLoopLatches hh, LoopInfo.isLoopLatch, hh]
  simp [hb]

theorem mem_naiveSelector (hl : l < LI.loops.length) {b : BlockId} : b ∈ naiveSelector M LI l ↔
    b ∈ LI.blocksOf l ∧ LI.headerOf l ≠ some b ∧ b ∉ LI.getLoopLatches M l := by
  rw [naiveSelector, List.mem_filter]
  refine and_congr_right fun hb => ?_
  rw [← isLoopLatch_iff hl hb]
  simp

theorem naiveSelector_noControl (hl : l < LI.loops.length) : NoControl M LI l (naiveSelector M LI l) :=
  fun _ hb => ((mem_naiveSelector hl).mp hb).2

theorem mem_bodyBlocks {rpo : List BlockId} {b : BlockId} : b ∈ bodyBlocks M LI l rpo ↔
    b ∈ rpo ∧ LI.headerOf l ≠ some b ∧ b ∉ LI.getLoopLatches M l := by
  rw [bodyBlocks, List.mem_filter, decide_eq_true_eq]

theorem cleanBlocks_body {rpo : List BlockId} {b : BlockId} (h : b ∈ cleanBlocks M LI l rpo info) :
    b ∈ bodyBlocks M LI l rpo := List.takeWhile_subset _ h

/- A loop whose header the scan meets is nested in the loop that is scanned. -/
theorem inner_of_clean (hLI : LI.Natural M) (hl : l < LI.loops.length) (hrpo : ∀ m b, b ∈ rpoOf m ↔ b ∈ LI.blocksOf m)
    {m : LoopId} {h : BlockId} (hmh : LI.headerOf m = some h) (hc : h ∈ cleanBlocks M LI l (rpoOf l) info) :
    LI.Inner l m := by
  obtain ⟨h1, h2, -⟩ := mem_bodyBlocks.mp (cleanBlocks_body hc)
  refine ⟨fun he => h2 (he ▸ hmh), ?_⟩
  exact LoopInfo.enclosing_of_header hLI hl hmh ((hrpo l h).mp h1)

/- The header of the loop is in none of the loops nested in it. -/
theorem header_notMem (hLI : LI.Natural M) {m : LoopId} (hm : m < LI.loops.length)
    (hin : LI.Inner l m) {h : BlockId} (hh : LI.headerOf l = some h) : h ∉ LI.blocksOf m := by
  intro hb
  have hml := LoopInfo.enclosing_of_header hLI hm hh hb
  exact hin.1 (LoopInfo.enclosing_antisymm hLI hm hin.2 hml)

/- Latches come in with the loops nested in `l`, and with nothing else. -/
theorem iteratorSelector_noControl_iff (hLI : LI.Natural M) (hl : l < LI.loops.length)
    (hrpo : ∀ m b, b ∈ rpoOf m ↔ b ∈ LI.blocksOf m) :
    NoControl M LI l (iteratorSelector M LI l rpoOf (some info)) ↔
      ∀ m h, LI.headerOf m = some h → h ∈ cleanBlocks M LI l (rpoOf l) info →
        ∀ b ∈ LI.blocksOf m, b ∉ LI.getLoopLatches M l := by
  constructor
  · intro hno m h hmh hc b hb
    refine (hno b ((iteratorSelector_mem hLI hrpo b).mpr ⟨h, hc, ?_⟩)).2
    rw [takenWith_header hLI hmh]
    exact hb
  · intro hcond b hb
    obtain ⟨bb, hbb, hm⟩ := (iteratorSelector_mem hLI hrpo b).mp hb
    obtain ⟨-, h2, h3⟩ := mem_bodyBlocks.mp (cleanBlocks_body hbb)
    rcases takenWith_cases LI bb with ⟨-, hself⟩ | ⟨m, -, hmh, htake⟩
    · rw [hself, List.mem_singleton] at hm
      exact hm ▸ ⟨h2, h3⟩
    · rw [htake] at hm
      have hin := inner_of_clean hLI hl hrpo hmh hbb
      refine ⟨fun hh => ?_, hcond m bb hmh hbb b hm⟩
      exact header_notMem hLI (LoopInfo.header_mem hLI hmh).1 hin hh hm

/- All the weight on one block. -/
def weightOf (b c : BlockId) : Nat := if c = b then 1 else 0

theorem sum_weightOf (b : BlockId) (bs : List BlockId) : (bs.map (weightOf b)).sum = bs.count b := by
  induction bs with
  | nil => rfl
  | cons c bs ih =>
    rw [List.map_cons, List.sum_cons, ih, List.count_cons, weightOf]
    by_cases hc : c = b <;> simp [hc, Nat.add_comm]

theorem treeWeight_weightOf (b : BlockId) {g : BlockId × List BlockId} (hnd : g.2.Nodup) :
    treeWeight (weightOf b) g = if b ∈ g.2 then 1 else 0 := by
  rw [treeWeight, unsignedSum_eq, sum_weightOf, hnd.count]
  split <;> rfl

/- With the weight on a block that can be reached, a tree that holds it is returned. -/
theorem heaviestTree_weightOf (hLI : LI.Natural M) (hl : l < LI.loops.length) (addr : BlockId → Nat)
    (pick : BlockId → Nat → Nat) {payload : List BlockId} {b : BlockId} (hb : PayloadReachable M LI l payload b) :
    ∃ blocks, heaviestTree addr pick (weightOf b) M LI l payload = some blocks ∧ b ∈ blocks := by
  obtain ⟨groups, hrun, htree, -⟩ := selectPayloadTrees_run addr pick hLI hl payload
  obtain ⟨g, hg, hbg⟩ := (htree.covers hLI hl b).mpr hb
  obtain ⟨m, hm⟩ := maxElement_some (weightOf b) (List.ne_nil_of_mem hg)
  refine ⟨m.2, by rw [heaviestTree, hrun, Option.bind_eq_bind, Option.bind_some, hm]; rfl, ?_⟩
  obtain ⟨hmem, hle⟩ := maxElement_le hm
  have hone := hle g hg
  rw [treeWeight_weightOf b (htree.nodup g hg), if_pos hbg, treeWeight_weightOf b (htree.nodup m hmem)] at hone
  by_contra hno
  rw [if_neg hno] at hone
  omega

theorem heaviestTree_noControl_iff (hLI : LI.Natural M) (hl : l < LI.loops.length) (payload : List BlockId) :
    (∀ addr pick weights blocks, heaviestTree addr pick weights M LI l payload = some blocks →
      NoControl M LI l blocks) ↔
      ∀ b ∈ LI.getLoopLatches M l, ¬ PayloadReachable M LI l payload b := by
  constructor
  · intro hall b hb hreach
    obtain ⟨blocks, hrun, hm⟩ := heaviestTree_weightOf hLI hl id (fun _ _ => 0) hreach
    exact (hall _ _ _ _ hrun b hm).2 hb
  · intro hcond addr pick weights blocks hrun b hb
    obtain ⟨trees, m, htrees, rfl, hm⟩ := heaviestTree_some hrun
    obtain ⟨groups, hgroups, htree, -⟩ := selectPayloadTrees_run addr pick hLI hl payload
    obtain rfl := Option.some.inj (htrees.symm.trans hgroups)
    obtain ⟨hmem, -⟩ := maxElement_le hm
    refine ⟨((htree.grown hLI hl hmem).2 b hb).1.header, fun hlatch => hcond b hlatch ?_⟩
    exact (htree.covers hLI hl b).mp ⟨m, hmem, hb⟩

/- The naive selector never returns a header or a latch. The scan returns a latch exactly
when it takes a nested loop that holds one, and the weighted selector can be brought to
return one, whatever the block addresses, exactly when payload reaches one. -/
theorem selectors_noControl_iff (hLI : LI.Natural M) (hl : l < LI.loops.length)
    (hrpo : ∀ m b, b ∈ rpoOf m ↔ b ∈ LI.blocksOf m) :
    (NoControl M LI l (naiveSelector M LI l) ∧
      NoControl M LI l (iteratorSelector M LI l rpoOf (some info)) ∧
      ∀ addr pick weights blocks,
        heaviestTree addr pick weights M LI l (getPayloadOnlyBlocks LI l info) = some blocks →
        NoControl M LI l blocks) ↔
      (∀ m h, LI.headerOf m = some h → h ∈ cleanBlocks M LI l (rpoOf l) info →
        ∀ b ∈ LI.blocksOf m, b ∉ LI.getLoopLatches M l) ∧
      ∀ b ∈ LI.getLoopLatches M l, ¬ PayloadReachable M LI l (getPayloadOnlyBlocks LI l info) b := by
  rw [iteratorSelector_noControl_iff hLI hl hrpo, heaviestTree_noControl_iff hLI hl]
  exact ⟨fun h => h.2, fun h => ⟨naiveSelector_noControl hl, h⟩⟩

theorem selectors_noControl_iff_forkLoop :
    (NoControl forkLoop forkLoops 0 (naiveSelector forkLoop forkLoops 0) ∧
      NoControl forkLoop forkLoops 0 (iteratorSelector forkLoop forkLoops 0 forkLoops.blocksOf
        (some fun b => b ∈ [2, 3])) ∧
      ∀ addr pick weights blocks, heaviestTree addr pick weights forkLoop forkLoops 0
        (getPayloadOnlyBlocks forkLoops 0 fun b => b ∈ [2, 3]) = some blocks →
        NoControl forkLoop forkLoops 0 blocks) ↔
      (∀ m h, forkLoops.headerOf m = some h →
        h ∈ cleanBlocks forkLoop forkLoops 0 (forkLoops.blocksOf 0) (fun b => b ∈ [2, 3]) →
        ∀ b ∈ forkLoops.blocksOf m, b ∉ forkLoops.getLoopLatches forkLoop 0) ∧
      ∀ b ∈ forkLoops.getLoopLatches forkLoop 0,
        ¬ PayloadReachable forkLoop forkLoops 0 (getPayloadOnlyBlocks forkLoops 0 fun b => b ∈ [2, 3]) b :=
  selectors_noControl_iff forkLoops_natural (by decide) fun _ _ => Iff.rfl

/- The nested loop of 2 and 3 branches back to the header 1, and so does 4. -/
def twoLatchLoop : Module where
  funcs := [{ id := 9, params := [], isVarArg := false, blocks :=
    [⟨0, [Inst.uncondBr 10 1], false⟩,
     ⟨1, [⟨11, .br, .void, [.const (.int 1 0)], [], [2, 6]⟩], false⟩,
     ⟨2, [⟨12, .br, .void, [.const (.int 1 0)], [], [3, 4]⟩], false⟩,
     ⟨3, [⟨13, .br, .void, [.const (.int 1 0)], [], [2, 1]⟩], false⟩,
     ⟨4, [Inst.uncondBr 14 1], false⟩,
     ⟨6, [⟨16, .ret, .void, [], [], []⟩], false⟩] }]
  nextId := 20
  valueName := fun _ => ""
  initUsesBlockAddress := fun _ => false

def twoLatchLoops : LoopInfo where
  loops := [⟨1, [1, 2, 3, 4], none⟩, ⟨2, [2, 3], some 0⟩]
  bbMap := fun b => [(1, 0), (2, 1), (3, 1), (4, 0)].lookup b

/- Both selectors return the latch 3, and the weighted one the latch 4 as well. -/
theorem twoLatchLoop_latches_selected : twoLatchLoops.Natural twoLatchLoop ∧
    twoLatchLoops.getLoopLatches twoLatchLoop 0 = [3, 4] ∧
    iteratorSelector twoLatchLoop twoLatchLoops 0 twoLatchLoops.blocksOf (some fun b => b ∈ [2, 3, 4]) = [2, 3] ∧
    weightedSelector id (fun _ _ => 0) twoLatchLoop twoLatchLoops 0 (some fun b => b ∈ [2, 3, 4]) =
      some [3, 4, 2] :=
  ⟨LoopInfo.natural_of_lookup (by decide) (by decide) (by decide) (by decide) (by decide) (by decide),
    by decide, by decide, by decide⟩

end NoControl

end Atrox
