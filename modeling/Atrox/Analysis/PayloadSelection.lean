import Mathlib.Data.List.TakeWhile
import Atrox.Analysis.SelectedEntry

/-!
# What the payload selectors select

The scan takes payload blocks only and is entered from the control blocks of its loop. The
weighted selector takes a heaviest tree when there is one.
-/

namespace Atrox
open IR Lib

/- What `LoopBlocksRPO` gives, edge by edge: each block of the loop once, and the source of each edge before its
target, but for the edges back to the header of a loop. `ReversePostOrder` asks of a header to stand before its
whole loop, whatever the edges; that is not needed for where the scan enters. -/
structure ForwardOrder (M : Module) (LI : LoopInfo) (l : LoopId) (rpo : List BlockId) : Prop where
  nodup : rpo.Nodup
  mem : ∀ b, b ∈ rpo ↔ b ∈ LI.blocksOf l
  forward : ∀ b ∈ LI.blocksOf l, ∀ p ∈ LI.blocksOf l, p ∈ M.predsOf b →
    rpo.idxOf p < rpo.idxOf b ∨ ∃ m, LI.headerOf m = some b ∧ p ∈ LI.blocksOf m

/- Edges of a loop lead to the blocks only from the blocks, the header or a latch. -/
def EnteredFromControl (M : Module) (LI : LoopInfo) (l : LoopId) (blocks : List BlockId) : Prop :=
  ∀ b ∈ blocks, ∀ p ∈ LI.blocksOf l, p ∈ M.predsOf b → p ∉ blocks →
    LI.headerOf l = some p ∨ p ∈ LI.getLoopLatches M l

section Scan
variable {M : Module} {LI : LoopInfo} {l : LoopId} {info : BlockId → Bool} {rpoOf : LoopId → List BlockId}

/- Payload only is what comes with a clean block. -/
theorem takenWith_payload (hLI : LI.Natural M) {k b : BlockId} (hc : isClean LI info k = true)
    (hb : b ∈ takenWith LI k) : info b = true := by
  rcases takenWith_cases LI k with ⟨hno, hself⟩ | ⟨m, -, hmh, htake⟩
  · rw [hself, List.mem_singleton] at hb
    simpa [isClean, hno, hb] using hc
  · rw [isClean_header hLI hmh] at hc
    rw [htake] at hb
    exact List.all_eq_true.mp hc b hb

/- What comes with a block of the loop is in the loop. -/
theorem takenWith_sub (hLI : LI.Natural M) (hl : l < LI.loops.length) {k b : BlockId} (hk : k ∈ LI.blocksOf l)
    (hb : b ∈ takenWith LI k) : b ∈ LI.blocksOf l := by
  rcases takenWith_cases LI k with ⟨-, hself⟩ | ⟨m, -, hmh, htake⟩
  · rw [hself, List.mem_singleton] at hb
    exact hb ▸ hk
  · rw [htake] at hb
    exact LoopInfo.blocksOf_sub hLI (LoopInfo.header_mem hLI hmh).1 (LoopInfo.enclosing_of_header hLI hl hmh hk) hb

theorem cleanBlocks_loop {rpo : List BlockId} (hrpo : ∀ b, b ∈ rpo ↔ b ∈ LI.blocksOf l) {k : BlockId}
    (hk : k ∈ cleanBlocks M LI l rpo info) : k ∈ LI.blocksOf l ∧ isClean LI info k = true :=
  ⟨(hrpo k).mp (mem_bodyBlocks.mp (cleanBlocks_body hk)).1, List.mem_takeWhile_imp hk⟩

/- A source that is no control block is scanned before a scanned block, or goes back to it. -/
theorem scanned_before {rpo : List BlockId} (hrpo : ForwardOrder M LI l rpo) {k p : BlockId}
    (hk : k ∈ cleanBlocks M LI l rpo info) (hp : p ∈ LI.blocksOf l) (hedge : p ∈ M.predsOf k)
    (hhead : LI.headerOf l ≠ some p) (hlatch : p ∉ LI.getLoopLatches M l) :
    p ∈ cleanBlocks M LI l rpo info ∨ ∃ m, LI.headerOf m = some k ∧ p ∈ LI.blocksOf m := by
  rcases hrpo.forward k (cleanBlocks_loop hrpo.mem hk).1 p hp hedge with hlt | hback
  · left
    have hbody : p ∈ bodyBlocks M LI l rpo := mem_bodyBlocks.mpr ⟨(hrpo.mem p).mpr hp, hhead, hlatch⟩
    exact mem_takeWhile_of_before hrpo.nodup _ _ hbody hk hlt
  · exact .inr hback

theorem iteratorSelector_entered (hLI : LI.Natural M) (hl : l < LI.loops.length)
    (hrpo : ∀ m, ForwardOrder M LI m (rpoOf m)) :
    EnteredFromControl M LI l (iteratorSelector M LI l rpoOf (some info)) := by
  have hmem : ∀ b, b ∈ iteratorSelector M LI l rpoOf (some info) ↔
      ∃ k ∈ cleanBlocks M LI l (rpoOf l) info, b ∈ takenWith LI k :=
    iteratorSelector_mem hLI fun m => (hrpo m).mem
  intro b hb p hp hedge hno
  by_contra hctrl
  rw [not_or] at hctrl
  rw [hmem] at hb hno
  obtain ⟨k, hk, hbk⟩ := hb
  have hscanned : p ∈ M.predsOf k → p ∈ takenWith LI k ∨ p ∈ cleanBlocks M LI l (rpoOf l) info := by
    intro hpk
    rcases scanned_before (hrpo l) hk hp hpk hctrl.1 hctrl.2 with hc | ⟨m, hm, hpm⟩
    · exact .inr hc
    · rw [takenWith_header hLI hm]
      exact .inl hpm
  have hdone : ¬ p ∈ M.predsOf k := fun hpk => (hscanned hpk).elim (fun h => hno ⟨k, hk, h⟩)
    fun h => hno ⟨p, h, self_takenWith hLI p⟩
  rcases takenWith_cases LI k with ⟨-, hself⟩ | ⟨m, -, hmh, htake⟩
  · rw [hself, List.mem_singleton] at hbk
    exact hdone (hbk ▸ hedge)
  · -- a loop taken whole is entered at its header
    by_cases hbh : b = k
    · exact hdone (hbh ▸ hedge)
    · rw [htake] at hbk
      have hnh : LI.headerOf m ≠ some b := fun he => hbh (Option.some.inj (he.symm.trans hmh))
      refine hno ⟨k, hk, ?_⟩
      rw [htake]
      exact pred_mem hLI (LoopInfo.header_mem hLI hmh).1 hbk hnh hedge (LoopInfo.live_of_mem hLI hl hp)

/- The scan appends payload blocks of the loop, each of them once, and edges that lead to them from
elsewhere in the loop start at its control blocks. -/
theorem iteratorSelector_payload (hLI : LI.Natural M) (hl : l < LI.loops.length)
    (hrpo : ∀ m, ForwardOrder M LI m (rpoOf m)) :
    (∀ b ∈ iteratorSelector M LI l rpoOf (some info), b ∈ getPayloadOnlyBlocks LI l info) ∧
    (iteratorSelector M LI l rpoOf (some info)).Nodup ∧
    EnteredFromControl M LI l (iteratorSelector M LI l rpoOf (some info)) := by
  refine ⟨fun b hb => ?_, SetVector.nodup _, iteratorSelector_entered hLI hl hrpo⟩
  obtain ⟨k, hk, hbk⟩ := (iteratorSelector_mem hLI (fun m => (hrpo m).mem) b).mp hb
  obtain ⟨hkl, hclean⟩ := cleanBlocks_loop (hrpo l).mem hk
  exact List.mem_filter.mpr ⟨takenWith_sub hLI hl hkl hbk, takenWith_payload hLI hclean hbk⟩

/- Loops that list their blocks in such an order. -/
theorem forwardOrder_blocksOf (hLI : LI.Natural M)
    (hforward : ∀ l < LI.loops.length, ∀ b ∈ LI.blocksOf l, ∀ p ∈ LI.blocksOf l, p ∈ M.predsOf b →
      (LI.blocksOf l).idxOf p < (LI.blocksOf l).idxOf b ∨
        ∃ m ∈ List.range LI.loops.length, LI.headerOf m = some b ∧ p ∈ LI.blocksOf m) (l : LoopId) :
    ForwardOrder M LI l (LI.blocksOf l) := by
  by_cases hl : l < LI.loops.length
  · refine ⟨hLI.blocks_nodup l hl, fun _ => Iff.rfl, fun b hb p hp hedge => ?_⟩
    rcases hforward l hl b hb p hp hedge with hlt | ⟨m, -, hm⟩
    · exact .inl hlt
    · exact .inr ⟨m, hm⟩
  · have hnil : LI.blocksOf l = [] := by
      rw [LoopInfo.blocksOf, List.getElem?_eq_none (Nat.le_of_not_lt hl)]
      rfl
    rw [hnil]
    exact ⟨List.nodup_nil, fun b => by rw [hnil], fun b hb => absurd (hnil ▸ hb) List.not_mem_nil⟩

theorem iteratorSelector_payload_twoLatchLoop :
    (∀ b ∈ iteratorSelector twoLatchLoop twoLatchLoops 0 twoLatchLoops.blocksOf (some fun b => b ∈ [2, 3]),
      b ∈ getPayloadOnlyBlocks twoLatchLoops 0 fun b => b ∈ [2, 3]) ∧
    (iteratorSelector twoLatchLoop twoLatchLoops 0 twoLatchLoops.blocksOf (some fun b => b ∈ [2, 3])).Nodup ∧
    EnteredFromControl twoLatchLoop twoLatchLoops 0
      (iteratorSelector twoLatchLoop twoLatchLoops 0 twoLatchLoops.blocksOf (some fun b => b ∈ [2, 3])) :=
  iteratorSelector_payload
    (LoopInfo.natural_of_lookup (by decide) (by decide) (by decide) (by decide) (by decide) (by decide)) (by decide)
    (forwardOrder_blocksOf
      (LoopInfo.natural_of_lookup (by decide) (by decide) (by decide) (by decide) (by decide) (by decide))
      (by decide))

end Scan

section Heaviest
variable {M : Module} {LI : LoopInfo} {l : LoopId}

/- The block weights of a group, added up without the wrap-around of `unsigned`. -/
def treeSum (weights : BlockId → Nat) (tree : BlockId × List BlockId) : Nat := (tree.2.map weights).sum

/- What is to be appended: one of the groups, a heaviest one while the sums fit, and nothing where
there are no groups. -/
def PicksHeaviest (weights : BlockId → Nat) (trees : RootGroups) (result : Option (List BlockId)) : Prop :=
  ∃ blocks, result = some blocks ∧ (trees = [] → blocks = []) ∧
    (trees ≠ [] → ∃ m ∈ trees, m.2 = blocks ∧
      ((∀ t ∈ trees, treeSum weights t < 2 ^ 32) → ∀ t ∈ trees, treeSum weights t ≤ treeSum weights m))

theorem treeWeight_eq {weights : BlockId → Nat} {t : BlockId × List BlockId} (h : treeSum weights t < 2 ^ 32) :
    treeWeight weights t = treeSum weights t := by
  rw [treeWeight, unsignedSum_eq]
  exact Nat.mod_eq_of_lt h

theorem maxElement_picks {weights : BlockId → Nat} {trees : RootGroups} {m : BlockId × List BlockId}
    (h : maxElement weights trees = some m) : PicksHeaviest weights trees (some m.2) := by
  obtain ⟨hmem, hle⟩ := maxElement_le h
  refine ⟨m.2, rfl, fun hnil => absurd (hnil ▸ hmem) List.not_mem_nil, fun _ => ⟨m, hmem, rfl, fun hfit t ht => ?_⟩⟩
  rw [← treeWeight_eq (hfit t ht), ← treeWeight_eq (hfit m hmem)]
  exact hle t ht

theorem heaviestTree_picks_iff {addr : BlockId → Nat} {pick : BlockId → Nat → Nat} {weights : BlockId → Nat}
    {payload : List BlockId} {trees : RootGroups} (h : selectPayloadTrees addr pick M LI l payload = some trees) :
    PicksHeaviest weights trees (heaviestTree addr pick weights M LI l payload) ↔ trees ≠ [] := by
  have hrun : heaviestTree addr pick weights M LI l payload = (maxElement weights trees).map Prod.snd := by
    rw [heaviestTree, h, Option.bind_eq_bind, Option.bind_some]
    cases maxElement weights trees <;> rfl
  rw [hrun]
  constructor
  · rintro ⟨blocks, hsome, -, -⟩ rfl
    cases hsome
  · intro hne
    obtain ⟨m, hm⟩ := maxElement_some weights hne
    rw [hm]
    exact maxElement_picks hm

/- There is a group when a block that may be visited is entered from an iterator block. -/
theorem selectPayloadTrees_ne_nil (hLI : LI.Natural M) (hl : l < LI.loops.length) {addr : BlockId → Nat}
    {pick : BlockId → Nat → Nat} {payload : List BlockId} {trees : RootGroups}
    (h : selectPayloadTrees addr pick M LI l payload = some trees) :
    trees ≠ [] ↔ ∃ r, Allowed M LI l payload r ∧ EnteredFromIterator M LI l payload r := by
  obtain ⟨groups, hrun, htree, -⟩ := selectPayloadTrees_run addr pick hLI hl payload
  obtain rfl := Option.some.inj (h.symm.trans hrun)
  constructor
  · intro hne
    obtain ⟨g, hg⟩ := List.exists_mem_of_ne_nil trees hne
    exact ⟨g.1, (htree.roots g.1).mp (List.mem_map_of_mem hg)⟩
  · rintro ⟨r, hr⟩
    obtain ⟨g, hg, -⟩ := List.mem_map.mp ((htree.roots r).mpr hr)
    exact List.ne_nil_of_mem hg

/- The selector dereferences the end of the weights where no payload block is entered from an
iterator block, and picks a heaviest tree everywhere else. -/
theorem weightedSelector_picks_iff (hLI : LI.Natural M) (hl : l < LI.loops.length) (addr : BlockId → Nat)
    (pick : BlockId → Nat → Nat) :
    (∀ payload, ∃ trees, selectPayloadTrees addr pick M LI l payload = some trees ∧
      (PicksHeaviest (calculatePayloadWeight M payload) trees
          (heaviestTree addr pick (calculatePayloadWeight M payload) M LI l payload) ↔
        ∃ r, Allowed M LI l payload r ∧ EnteredFromIterator M LI l payload r)) ∧
    ∀ info, ∃ trees, selectPayloadTrees addr pick M LI l (getPayloadOnlyBlocks LI l info) = some trees ∧
      (PicksHeaviest (calculatePayloadWeight M (getPayloadOnlyBlocks LI l info)) trees
          (weightedSelector addr pick M LI l (some info)) ↔
        ∃ r, Allowed M LI l (getPayloadOnlyBlocks LI l info) r ∧
          EnteredFromIterator M LI l (getPayloadOnlyBlocks LI l info) r) := by
  have hall : ∀ payload, ∃ trees, selectPayloadTrees addr pick M LI l payload = some trees ∧
      (PicksHeaviest (calculatePayloadWeight M payload) trees
          (heaviestTree addr pick (calculatePayloadWeight M payload) M LI l payload) ↔
        ∃ r, Allowed M LI l payload r ∧ EnteredFromIterator M LI l payload r) := by
    intro payload
    obtain ⟨trees, hrun, -, -⟩ := selectPayloadTrees_run addr pick hLI hl payload
    exact ⟨trees, hrun, (heaviestTree_picks_iff hrun).trans (selectPayloadTrees_ne_nil hLI hl hrun)⟩
  exact ⟨hall, fun info => hall (getPayloadOnlyBlocks LI l info)⟩

theorem weightedSelector_picks_iff_twoEntryLoop :
    (∀ payload, ∃ trees, selectPayloadTrees id (fun _ _ => 0) twoEntryLoop twoEntryLoops 0 payload = some trees ∧
      (PicksHeaviest (calculatePayloadWeight twoEntryLoop payload) trees
          (heaviestTree id (fun _ _ => 0) (calculatePayloadWeight twoEntryLoop payload) twoEntryLoop twoEntryLoops
            0 payload) ↔
        ∃ r, Allowed twoEntryLoop twoEntryLoops 0 payload r ∧
        EnteredFromIterator twoEntryLoop twoEntryLoops 0 payload r)) ∧
    ∀ info, ∃ trees, selectPayloadTrees id (fun _ _ => 0) twoEntryLoop twoEntryLoops 0
        (getPayloadOnlyBlocks twoEntryLoops 0 info) = some trees ∧
      (PicksHeaviest (calculatePayloadWeight twoEntryLoop (getPayloadOnlyBlocks twoEntryLoops 0 info)) trees
          (weightedSelector id (fun _ _ => 0) twoEntryLoop twoEntryLoops 0 (some info)) ↔
        ∃ r, Allowed twoEntryLoop twoEntryLoops 0 (getPayloadOnlyBlocks twoEntryLoops 0 info) r ∧
          EnteredFromIterator twoEntryLoop twoEntryLoops 0 (getPayloadOnlyBlocks twoEntryLoops 0 info) r) :=
  weightedSelector_picks_iff twoEntryLoops_natural (by decide) id (fun _ _ => 0)

/- No block of the loop is payload only: there is no tree, and the selector does not get that far. -/
theorem twoEntryLoop_noTree : twoEntryLoops.Natural twoEntryLoop ∧
    selectPayloadTrees id (fun _ _ => 0) twoEntryLoop twoEntryLoops 0
    (getPayloadOnlyBlocks twoEntryLoops 0 fun _ => false) =
      some [] ∧
    weightedSelector id (fun _ _ => 0) twoEntryLoop twoEntryLoops 0 (some fun _ => false) = none ∧
    ¬ PicksHeaviest (calculatePayloadWeight twoEntryLoop (getPayloadOnlyBlocks twoEntryLoops 0 fun _ => false)) []
      (weightedSelector id (fun _ _ => 0) twoEntryLoop twoEntryLoops 0 (some fun _ => false)) := by
  have hnone : weightedSelector id (fun _ _ => 0) twoEntryLoop twoEntryLoops 0 (some fun _ => false) = none := by
    decide
  refine ⟨twoEntryLoops_natural, by decide, hnone, ?_⟩
  rw [hnone]
  rintro ⟨blocks, hsome, -⟩
  exact nomatch hsome

end Heaviest

end Atrox
