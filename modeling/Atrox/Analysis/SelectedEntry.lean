import Atrox.Analysis.SelectedLoops
import Atrox.Transforms.LoopBodyCloner

/-!
# The entry of the selected region

`cloneLoop` hands the selected blocks in reverse post order to the extractor, whose
code takes the first of them for the only one that is entered from outside.
-/

namespace Atrox
open IR Lib

/- Every block but the first has its predecessors among the blocks. -/
def EnteredAtFirst (M : Module) (blocks : List BlockId) : Prop :=
  ∀ b ∈ blocks, blocks.head? ≠ some b → ∀ p ∈ M.predsOf b, p ∈ blocks

section Body
variable {M : Module} {LI : LoopInfo} {l : LoopId} {info : BlockId → Bool} {rpo : List BlockId}

theorem mem_orderBlocks {selected : List BlockId} {b : BlockId} :
    b ∈ orderBlocks rpo selected ↔ b ∈ rpo ∧ b ∈ selected := by
  rw [orderBlocks, List.mem_filter, decide_eq_true_eq]

/- A block of the loop other than its header is entered from the loop, as far as control gets there. -/
theorem pred_mem (hLI : LI.Natural M) (hl : l < LI.loops.length) {b p : BlockId} (hb : b ∈ LI.blocksOf l)
    (hhead : LI.headerOf l ≠ some b) (hp : p ∈ M.predsOf b) (hr : LI.Live M p) : p ∈ LI.blocksOf l := by
  obtain ⟨x, hx, rfl, hs⟩ := Module.mem_predsOf.mp hp
  by_contra hno
  exact hhead (hLI.entry l hl x hx hr b hs hb hno)

/- The header, the latches and blocks outside the loop branch to no block but the first. -/
def ControlEntersFirst (M : Module) (LI : LoopInfo) (l : LoopId) (blocks : List BlockId) : Prop :=
  ∀ b ∈ blocks, ∀ p ∈ M.predsOf b, LI.headerOf l = some p ∨ p ∈ LI.getLoopLatches M l ∨ p ∉ LI.blocksOf l →
    blocks.head? = some b

theorem orderBlocks_naiveSelector (hl : l < LI.loops.length) (hrpo : ReversePostOrder LI l rpo) :
    orderBlocks rpo (naiveSelector M LI l) = bodyBlocks M LI l rpo := by
  refine List.filter_congr fun b hb => decide_eq_decide.mpr ?_
  exact (mem_naiveSelector hl).trans (and_iff_right ((hrpo.mem b).mp hb))

theorem naiveSelector_singleEntry_iff (hl : l < LI.loops.length) (hrpo : ReversePostOrder LI l rpo) :
    EnteredAtFirst M (orderBlocks rpo (naiveSelector M LI l)) ↔ ControlEntersFirst M LI l (bodyBlocks M LI l rpo) := by
  rw [orderBlocks_naiveSelector hl hrpo]
  constructor
  · intro hsingle b hb p hp hctrl
    by_contra hne
    obtain ⟨hpr, h1, h2⟩ := mem_bodyBlocks.mp (hsingle b hb hne p hp)
    rcases hctrl with h | h | h
    · exact h1 h
    · exact h2 h
    · exact h ((hrpo.mem p).mp hpr)
  · intro hctrl b hb hne p hp
    have hpl : p ∈ LI.blocksOf l := by
      by_contra hno
      exact hne (hctrl b hb p hp (.inr (.inr hno)))
    exact mem_bodyBlocks.mpr ⟨(hrpo.mem p).mpr hpl, fun h => hne (hctrl b hb p hp (.inl h)),
      fun h => hne (hctrl b hb p hp (.inr (.inl h)))⟩

end Body

section Scan
variable {M : Module} {LI : LoopInfo} {l : LoopId} {info : BlockId → Bool} {rpoOf : LoopId → List BlockId}

/- The header, the latches, later blocks and blocks outside the loop branch to no scanned block but
the first, unless they are taken themselves, and blocks that control does not reach lead into the
middle of no inner loop that is taken, unless they are taken, too. -/
structure ScanEntersFirst (M : Module) (LI : LoopInfo) (l : LoopId) (rpo : List BlockId) (info : BlockId → Bool) :
    Prop where
  scanned : ∀ b ∈ cleanBlocks M LI l rpo info, ∀ p ∈ M.predsOf b,
    LI.headerOf l = some p ∨ p ∈ LI.getLoopLatches M l ∨ rpo.idxOf b < rpo.idxOf p ∨ p ∉ LI.blocksOf l →
    (cleanBlocks M LI l rpo info).head? = some b ∨ ∃ k ∈ cleanBlocks M LI l rpo info, p ∈ takenWith LI k
  inner : ∀ k ∈ cleanBlocks M LI l rpo info, ∀ b ∈ takenWith LI k, b ≠ k → ∀ p ∈ M.predsOf b, ¬M.Reached p →
    ∃ k' ∈ cleanBlocks M LI l rpo info, p ∈ takenWith LI k'

theorem cleanBlocks_pairwise {rpo : List BlockId} (hnd : rpo.Nodup) :
    (cleanBlocks M LI l rpo info).Pairwise fun a b => rpo.idxOf a < rpo.idxOf b := by
  have hbody : (bodyBlocks M LI l rpo).Pairwise fun a b => rpo.idxOf a < rpo.idxOf b := (pairwise_idxOf hnd).filter _
  exact hbody.sublist (List.takeWhile_sublist _)

/- What is taken with a block stands behind it. -/
theorem idxOf_takenWith (hLI : LI.Natural M) (hl : l < LI.loops.length) {rpo : List BlockId}
    (hrpo : ReversePostOrder LI l rpo) {k b : BlockId} (hk : k ∈ rpo) (hb : b ∈ takenWith LI k) :
    b ∈ rpo ∧ rpo.idxOf k ≤ rpo.idxOf b := by
  rcases takenWith_cases LI k with ⟨-, hself⟩ | ⟨m, -, hmh, htake⟩
  · rw [hself, List.mem_singleton] at hb
    exact ⟨hb ▸ hk, Nat.le_of_eq (by rw [hb])⟩
  · rw [htake] at hb
    have hlm := LoopInfo.enclosing_of_header hLI hl hmh ((hrpo.mem k).mp hk)
    have hbl := LoopInfo.blocksOf_sub hLI (LoopInfo.header_mem hLI hmh).1 hlm hb
    refine ⟨(hrpo.mem b).mpr hbl, ?_⟩
    by_cases he : b = k
    · exact Nat.le_of_eq (by rw [he])
    · exact Nat.le_of_lt (hrpo.header_first m k hmh hlm b hb he)

/- The first block of the region is the first the scan meets. -/
theorem orderBlocks_head (hLI : LI.Natural M) (hl : l < LI.loops.length) (hrpo : ∀ m, ReversePostOrder LI m (rpoOf m)) :
    (orderBlocks (rpoOf l) (iteratorSelector M LI l rpoOf (some info))).head? =
      (cleanBlocks M LI l (rpoOf l) info).head? := by
  have hmem : ∀ b, b ∈ iteratorSelector M LI l rpoOf (some info) ↔ _ :=
    iteratorSelector_mem hLI fun m => (hrpo m).mem
  have hclean : ∀ k ∈ cleanBlocks M LI l (rpoOf l) info, k ∈ rpoOf l := fun k hk =>
    (mem_bodyBlocks.mp (cleanBlocks_body hk)).1
  have hpair : (cleanBlocks M LI l (rpoOf l) info).Pairwise _ := cleanBlocks_pairwise (hrpo l).nodup
  cases hc : cleanBlocks M LI l (rpoOf l) info with
  | nil =>
    have hempty : orderBlocks (rpoOf l) (iteratorSelector M LI l rpoOf (some info)) = [] := by
      refine List.eq_nil_iff_forall_not_mem.mpr fun b hb => ?_
      obtain ⟨k, hk, -⟩ := (hmem b).mp (mem_orderBlocks.mp hb).2
      rw [hc] at hk
      exact List.not_mem_nil hk
    rw [hempty]
  | cons k ks =>
    rw [hc] at hpair hclean
    have hkr := hclean k (List.mem_cons_self ..)
    refine (head?_filter_iff (hrpo l).nodup _).mpr
      ⟨mem_orderBlocks.mpr ⟨hkr, (hmem k).mpr ⟨k, ?_, self_takenWith hLI k⟩⟩, ?_⟩
    · rw [hc]
      exact List.mem_cons_self ..
    · intro b hb hne
      obtain ⟨k', hk', hbt⟩ := (hmem b).mp (mem_orderBlocks.mp hb).2
      rw [hc] at hk'
      obtain ⟨hbr, hle⟩ := idxOf_takenWith hLI hl (hrpo l) (hclean k' hk') hbt
      rcases List.mem_cons.mp hk' with rfl | hk'
      · refine Nat.lt_of_le_of_ne hle fun he => hne ?_
        exact ((List.idxOf_inj hkr).mp he).symm
      · exact Nat.lt_of_lt_of_le ((List.pairwise_cons.mp hpair).1 k' hk') hle

/- The first scanned block is no inner block of a loop that is taken. -/
theorem cleanBlocks_head_ne (hLI : LI.Natural M) (hl : l < LI.loops.length) {rpo : List BlockId}
    (hrpo : ReversePostOrder LI l rpo) {k b : BlockId} (hk : k ∈ cleanBlocks M LI l rpo info)
    (hb : b ∈ takenWith LI k) (hne : b ≠ k) : (cleanBlocks M LI l rpo info).head? ≠ some b := by
  intro hhead
  have hkr := (mem_bodyBlocks.mp (cleanBlocks_body hk)).1
  obtain ⟨-, hle⟩ := idxOf_takenWith hLI hl hrpo hkr hb
  have hpair : (cleanBlocks M LI l rpo info).Pairwise _ := cleanBlocks_pairwise hrpo.nodup
  obtain ⟨rest, hrest⟩ := List.head?_eq_some_iff.mp hhead
  rw [hrest] at hk hpair
  rcases List.mem_cons.mp hk with rfl | hk
  · exact hne rfl
  · exact absurd ((List.pairwise_cons.mp hpair).1 k hk) (Nat.not_lt.mpr hle)

/- A predecessor that stands before a scanned block in the body is scanned, too. -/
theorem iteratorSelector_singleEntry_iff (hLI : LI.Natural M) (hl : l < LI.loops.length)
    (hrpo : ∀ m, ReversePostOrder LI m (rpoOf m)) :
    EnteredAtFirst M (orderBlocks (rpoOf l) (iteratorSelector M LI l rpoOf (some info))) ↔
      ScanEntersFirst M LI l (rpoOf l) info := by
  have hmem : ∀ b, b ∈ iteratorSelector M LI l rpoOf (some info) ↔
      ∃ k ∈ cleanBlocks M LI l (rpoOf l) info, b ∈ takenWith LI k :=
    iteratorSelector_mem hLI fun m => (hrpo m).mem
  have horder : ∀ b, b ∈ orderBlocks (rpoOf l) (iteratorSelector M LI l rpoOf (some info)) ↔
      ∃ k ∈ cleanBlocks M LI l (rpoOf l) info, b ∈ takenWith LI k := by
    intro b
    rw [mem_orderBlocks, hmem]
    refine and_iff_right_of_imp ?_
    rintro ⟨k, hk, hb⟩
    exact (idxOf_takenWith hLI hl (hrpo l) (mem_bodyBlocks.mp (cleanBlocks_body hk)).1 hb).1
  rw [EnteredAtFirst, orderBlocks_head hLI hl hrpo]
  constructor
  · intro hsingle
    constructor
    · intro b hb p hp _
      by_cases hne : (cleanBlocks M LI l (rpoOf l) info).head? = some b
      · exact .inl hne
      · have hbo := (horder b).mpr ⟨b, hb, self_takenWith hLI b⟩
        exact .inr ((horder p).mp (hsingle b hbo hne p hp))
    · intro k hk b hb hne p hp _
      have hhead := cleanBlocks_head_ne hLI hl (hrpo l) hk hb hne
      exact (horder p).mp (hsingle b ((horder b).mpr ⟨k, hk, hb⟩) hhead p hp)
  · intro henter b hbo hne p hp
    rw [horder] at hbo ⊢
    obtain ⟨k, hk, hbt⟩ := hbo
    by_cases hbk : b = k
    · subst hbk
      by_contra hno
      have hnot : ¬ (LI.headerOf l = some p ∨ p ∈ LI.getLoopLatches M l ∨ (rpoOf l).idxOf b < (rpoOf l).idxOf p ∨
          p ∉ LI.blocksOf l) := fun h => (henter.scanned b hk p hp h).elim hne hno
      simp only [not_or, not_lt, not_not] at hnot
      obtain ⟨hhead, hlatch, hle, hpl⟩ := hnot
      -- `p` stands before `b` in the body, so that the scan meets it first
      have hpr := ((hrpo l).mem p).mpr hpl
      have hbody : p ∈ bodyBlocks M LI l (rpoOf l) := mem_bodyBlocks.mpr ⟨hpr, hhead, hlatch⟩
      have hlt : (rpoOf l).idxOf p < (rpoOf l).idxOf b := by
        refine Nat.lt_of_le_of_ne hle fun he => hno ?_
        rw [(List.idxOf_inj hpr).mp he]
        exact ⟨b, hk, self_takenWith hLI b⟩
      exact hno ⟨p, mem_takeWhile_of_before (hrpo l).nodup _ _ hbody hk hlt, self_takenWith hLI p⟩
    · by_cases hr : M.Reached p
      · rcases takenWith_cases LI k with ⟨-, hself⟩ | ⟨m, -, hmh, htake⟩
        · rw [hself, List.mem_singleton] at hbt
          exact absurd hbt hbk
        · -- an inner loop is entered by its header
          rw [htake] at hbt
          have hhead : LI.headerOf m ≠ some b := fun he => hbk (Option.some.inj (he.symm.trans hmh))
          refine ⟨k, hk, ?_⟩
          rw [htake]
          exact pred_mem hLI (LoopInfo.header_mem hLI hmh).1 hbt hhead hp (.inl hr)
      · exact henter.inner k hk b hbt hbk p hp hr

end Scan

section Trees
variable {M : Module} {LI : LoopInfo} {l : LoopId} {payload rpo : List BlockId}

/- What a root leads to stands behind it and is entered, but for the root, from itself. -/
def TreesEnteredAtRoot (M : Module) (LI : LoopInfo) (l : LoopId) (rpo payload : List BlockId) : Prop :=
  ∀ r, Allowed M LI l payload r → EnteredFromIterator M LI l payload r →
    ∀ b, Within (Edge M) {c | Allowed M LI l payload c} r b → b ≠ r →
      rpo.idxOf r < rpo.idxOf b ∧
        ∀ p ∈ M.predsOf b, Within (Edge M) {c | Allowed M LI l payload c} r p

theorem edge_pred {x y : BlockId} (h : Edge M x y) : x ∈ M.predsOf y := by
  unfold Edge Module.succsOf at h
  cases hx : M.block? x with
  | none =>
    rw [hx] at h
    exact absurd h List.not_mem_nil
  | some blk =>
    rw [hx] at h
    obtain ⟨h1, h2⟩ := block?_some hx
    exact Module.mem_predsOf.mpr ⟨blk, h1, h2, h⟩

/- No root is in the tree of another. -/
theorem root_notMem (htrees : TreesEnteredAtRoot M LI l rpo payload) {r r' : BlockId}
    (hr : Allowed M LI l payload r) (hre : EnteredFromIterator M LI l payload r) (hne : r' ≠ r)
    (hre' : EnteredFromIterator M LI l payload r') :
    ¬ Within (Edge M) {c | Allowed M LI l payload c} r r' := by
  intro h
  obtain ⟨p, hp, -, hno⟩ := hre'
  have hpr := (htrees r hr hre r' h hne).2 p hp
  exact hno (Within.mem hr hpr).listed

/- Two trees share nothing. -/
theorem trees_disjoint (htrees : TreesEnteredAtRoot M LI l rpo payload) {r r' : BlockId} (hne : r' ≠ r)
    (hr : Allowed M LI l payload r) (hre : EnteredFromIterator M LI l payload r)
    (hr' : Allowed M LI l payload r') (hre' : EnteredFromIterator M LI l payload r') {b : BlockId}
    (hb : Within (Edge M) {c | Allowed M LI l payload c} r b) :
    ¬ Within (Edge M) {c | Allowed M LI l payload c} r' b := by
  induction hb with
  | refl => exact root_notMem htrees hr' hre' (fun he => hne he.symm) hre
  | @tail x y hrx hxy ih =>
    intro hy
    by_cases hyr : y = r'
    · exact root_notMem htrees hr hre hne hre' (hyr ▸ Relation.ReflTransGen.tail hrx hxy)
    · exact ih ((htrees r' hr' hre' y hy hyr).2 x (edge_pred hxy.1))

/- So each group is all that its root leads to. -/
theorem group_whole (hLI : LI.Natural M) (hl : l < LI.loops.length) (htrees : TreesEnteredAtRoot M LI l rpo payload)
    {groups : RootGroups} (htree : TreeRun M LI l payload groups) (hnd : (groups.map Prod.fst).Nodup)
    {g : BlockId × List BlockId} (hg : g ∈ groups) (b : BlockId) :
    b ∈ g.2 ↔ Within (Edge M) {c | Allowed M LI l payload c} g.1 b := by
  obtain ⟨-, hgrown⟩ := htree.grown hLI hl hg
  obtain ⟨hr, hre⟩ := (htree.roots g.1).mp (List.mem_map_of_mem hg)
  constructor
  · intro hb
    exact ((hgrown b hb).2).mono fun c hc => (hgrown c hc).1
  · intro hb
    obtain ⟨x, hx, hbx⟩ := (htree.covers hLI hl b).mpr ⟨g.1, hr, hre, hb⟩
    obtain ⟨hxr, hxe⟩ := (htree.roots x.1).mp (List.mem_map_of_mem hx)
    obtain ⟨-, hgrownx⟩ := htree.grown hLI hl hx
    have hroot : x.1 = g.1 := by
      by_contra hne
      exact trees_disjoint htrees hne hr hre hxr hxe hb (((hgrownx b hbx).2).mono fun c hc => (hgrownx c hc).1)
    exact List.inj_on_of_nodup_map hnd hx hg hroot ▸ hbx

/- With the weight on the root that is searched first, its tree is returned. -/
theorem heaviestTree_first (hLI : LI.Natural M) (hl : l < LI.loops.length) {r : BlockId}
    (hr : Allowed M LI l payload r) (hre : EnteredFromIterator M LI l payload r) :
    ∃ blocks, heaviestTree (addrBefore r) (fun _ _ => 0) (weightOf r) M LI l payload = some blocks ∧
      ∀ b, b ∈ blocks ↔ Within (Edge M) {c | Allowed M LI l payload c} r b := by
  obtain ⟨g, groups, hrun, htree, hg, hrest, -⟩ :=
    selectPayloadTrees_first (fun _ _ => 0) hLI hl (fun _ => addrBefore_lt) hr hre
  have hrg : r ∈ g := (hg r).mpr .refl
  obtain ⟨m, hm⟩ := maxElement_some (weightOf r) (List.cons_ne_nil (r, g) groups)
  obtain ⟨hmem, hle⟩ := maxElement_le hm
  have hone := hle (r, g) (List.mem_cons_self ..)
  rw [treeWeight_weightOf r (htree.nodup (r, g) (List.mem_cons_self ..)), if_pos hrg,
    treeWeight_weightOf r (htree.nodup m hmem)] at hone
  have hrm : r ∈ m.2 := by
    by_contra hno
    rw [if_neg hno] at hone
    omega
  have hfirst : m = (r, g) := by
    rcases List.mem_cons.mp hmem with he | hms
    · exact he
    · obtain ⟨hne, hshare⟩ := hrest m hms
      exact absurd hrg ((hshare r hrm).resolve_left fun he => hne he.symm)
  refine ⟨g, ?_, hg⟩
  rw [heaviestTree, hrun, Option.bind_eq_bind, Option.bind_some, hm, hfirst]
  rfl

theorem heaviestTree_singleEntry_iff (hLI : LI.Natural M) (hl : l < LI.loops.length)
    (hrpo : ReversePostOrder LI l rpo) (hsub : ∀ b ∈ payload, b ∈ LI.blocksOf l) :
    (∀ addr pick weights blocks, heaviestTree addr pick weights M LI l payload = some blocks →
      EnteredAtFirst M (orderBlocks rpo blocks)) ↔ TreesEnteredAtRoot M LI l rpo payload := by
  have hin : ∀ {b}, Allowed M LI l payload b → b ∈ rpo := fun h => (hrpo.mem _).mpr (hsub _ h.listed)
  constructor
  · intro hall r hr hre b hb hne
    obtain ⟨blocks, hrun, hblocks⟩ := heaviestTree_first hLI hl hr hre
    have hsingle := hall _ _ _ _ hrun
    have hmem : ∀ c, c ∈ orderBlocks rpo blocks ↔ Within (Edge M) {c | Allowed M LI l payload c} r c := by
      intro c
      rw [mem_orderBlocks, hblocks]
      exact and_iff_right_of_imp fun h => hin (Within.mem hr h)
    have hhead : (orderBlocks rpo blocks).head? = some r := by
      by_contra hno
      obtain ⟨p, hp, -, hnot⟩ := hre
      have hpr := (hmem p).mp (hsingle r ((hmem r).mpr .refl) hno p hp)
      exact hnot (Within.mem hr hpr).listed
    refine ⟨((head?_filter_iff hrpo.nodup _).mp hhead).2 b ((hmem b).mpr hb) hne, fun p hp => ?_⟩
    have hnb : (orderBlocks rpo blocks).head? ≠ some b := fun he => hne (Option.some.inj (he.symm.trans hhead))
    exact (hmem p).mp (hsingle b ((hmem b).mpr hb) hnb p hp)
  · intro htrees addr pick weights blocks hrun
    obtain ⟨trees, g, hsel, rfl, hg⟩ := heaviestTree_some hrun
    obtain ⟨groups, hgroups, htree, hfst⟩ := selectPayloadTrees_run addr pick hLI hl payload
    obtain rfl := Option.some.inj (hsel.symm.trans hgroups)
    have hgm := (maxElement_le hg).1
    obtain ⟨hr, hre⟩ := (htree.roots g.1).mp (List.mem_map_of_mem hgm)
    have hmem : ∀ c, c ∈ orderBlocks rpo g.2 ↔ Within (Edge M) {c | Allowed M LI l payload c} g.1 c := by
      intro c
      rw [mem_orderBlocks, group_whole hLI hl htrees htree (hfst ▸ sortedRoots_nodup addr M LI l payload) hgm]
      exact and_iff_right_of_imp fun h => hin (Within.mem hr h)
    have hhead : (orderBlocks rpo g.2).head? = some g.1 := by
      refine (head?_filter_iff hrpo.nodup _).mpr ⟨(hmem g.1).mpr .refl, fun c hc hne => ?_⟩
      exact (htrees g.1 hr hre c ((hmem c).mp hc) hne).1
    intro b hb hne p hp
    have hbr : b ≠ g.1 := fun he => hne (he ▸ hhead)
    exact (hmem p).mpr ((htrees g.1 hr hre b ((hmem b).mp hb) hbr).2 p hp)

end Trees

section Selectors
variable {M : Module} {LI : LoopInfo} {l : LoopId} {info : BlockId → Bool} {rpoOf : LoopId → List BlockId}

/- When the blocks of each selector, in reverse post order, are entered at the first one only. -/
theorem selectors_singleEntry_iff (hLI : LI.Natural M) (hl : l < LI.loops.length)
    (hrpo : ∀ m, ReversePostOrder LI m (rpoOf m)) :
    (EnteredAtFirst M (orderBlocks (rpoOf l) (naiveSelector M LI l)) ↔
      ControlEntersFirst M LI l (bodyBlocks M LI l (rpoOf l))) ∧
    (EnteredAtFirst M (orderBlocks (rpoOf l) (iteratorSelector M LI l rpoOf (some info))) ↔
      ScanEntersFirst M LI l (rpoOf l) info) ∧
    ((∀ addr pick weights blocks,
      heaviestTree addr pick weights M LI l (getPayloadOnlyBlocks LI l info) = some blocks →
      EnteredAtFirst M (orderBlocks (rpoOf l) blocks)) ↔
      TreesEnteredAtRoot M LI l (rpoOf l) (getPayloadOnlyBlocks LI l info)) :=
  ⟨naiveSelector_singleEntry_iff hl (hrpo l), iteratorSelector_singleEntry_iff hLI hl hrpo,
    heaviestTree_singleEntry_iff hLI hl (hrpo l) fun _ hb => (List.mem_filter.mp hb).1⟩

/- The header 1 branches to both blocks of the body, of which 2 falls through to 3. -/
def twoEntryLoop : Module where
  funcs := [{ id := 9, params := [], isVarArg := false, blocks :=
    [⟨0, [Inst.uncondBr 10 1], false⟩,
     ⟨1, [⟨11, .br, .void, [.const (.int 1 0)], [], [2, 3]⟩], false⟩,
     ⟨2, [Inst.uncondBr 12 3], false⟩,
     ⟨3, [Inst.uncondBr 13 4], false⟩,
     ⟨4, [⟨14, .br, .void, [.const (.int 1 0)], [], [1, 6]⟩], false⟩,
     ⟨6, [⟨16, .ret, .void, [], [], []⟩], false⟩] }]
  nextId := 20
  valueName := fun _ => ""
  initUsesBlockAddress := fun _ => false

def twoEntryLoops : LoopInfo where
  loops := [⟨1, [1, 2, 3, 4], none⟩]
  bbMap := fun b => [(1, 0), (2, 0), (3, 0), (4, 0)].lookup b

theorem twoEntryLoops_natural : twoEntryLoops.Natural twoEntryLoop :=
  LoopInfo.natural_of_lookup (by decide) (by decide) (by decide) (by decide) (by decide) (by decide)

theorem twoEntryLoops_rpo (m : LoopId) : ReversePostOrder twoEntryLoops m (twoEntryLoops.blocksOf m) :=
  reversePostOrder_blocksOf twoEntryLoops_natural (by decide) m

theorem selectors_singleEntry_iff_twoEntryLoop :
    (EnteredAtFirst twoEntryLoop (orderBlocks (twoEntryLoops.blocksOf 0) (naiveSelector twoEntryLoop twoEntryLoops 0)) ↔
      ControlEntersFirst twoEntryLoop twoEntryLoops 0 (bodyBlocks twoEntryLoop twoEntryLoops 0 (twoEntryLoops.blocksOf 0))) ∧
    (EnteredAtFirst twoEntryLoop (orderBlocks (twoEntryLoops.blocksOf 0) (iteratorSelector twoEntryLoop twoEntryLoops 0
        twoEntryLoops.blocksOf (some fun b => b ∈ [2, 3]))) ↔
      ScanEntersFirst twoEntryLoop twoEntryLoops 0 (twoEntryLoops.blocksOf 0) fun b => b ∈ [2, 3]) ∧
    ((∀ addr pick weights blocks, heaviestTree addr pick weights twoEntryLoop twoEntryLoops 0
        (getPayloadOnlyBlocks twoEntryLoops 0 fun b => b ∈ [2, 3]) = some blocks →
      EnteredAtFirst twoEntryLoop (orderBlocks (twoEntryLoops.blocksOf 0) blocks)) ↔
      TreesEnteredAtRoot twoEntryLoop twoEntryLoops 0 (twoEntryLoops.blocksOf 0)
        (getPayloadOnlyBlocks twoEntryLoops 0 fun b => b ∈ [2, 3])) :=
  selectors_singleEntry_iff twoEntryLoops_natural (by decide) twoEntryLoops_rpo

/- All three selectors return 2 and 3, and 3 is entered from the header as well. -/
theorem twoEntryLoop_entered_twice : twoEntryLoops.Natural twoEntryLoop ∧
    orderBlocks (twoEntryLoops.blocksOf 0) (naiveSelector twoEntryLoop twoEntryLoops 0) = [2, 3] ∧
    orderBlocks (twoEntryLoops.blocksOf 0) (iteratorSelector twoEntryLoop twoEntryLoops 0 twoEntryLoops.blocksOf
      (some fun b => b ∈ [2, 3])) = [2, 3] ∧
    (weightedSelector id (fun _ _ => 0) twoEntryLoop twoEntryLoops 0 (some fun b => b ∈ [2, 3])).map
      (orderBlocks (twoEntryLoops.blocksOf 0)) = some [2, 3] ∧
    ¬ EnteredAtFirst twoEntryLoop [2, 3] := by
  refine ⟨twoEntryLoops_natural, by decide, by decide, by decide, fun h => ?_⟩
  exact absurd (h 3 (by decide) (by decide) 1 (by decide)) (by decide)

end Selectors

end Atrox
