import Mathlib.Algebra.BigOperators.Ring.List
import Mathlib.Algebra.Order.BigOperators.Group.List
import Atrox.Analysis.SelectedControl

/-!
# Nested loops among the selected blocks
-/

namespace Atrox
open IR Lib

/- Inside a loop every block leads to every other. -/
def IR.LoopInfo.Connected (LI : LoopInfo) (M : Module) : Prop :=
  ∀ m < LI.loops.length, ∀ x ∈ LI.blocksOf m, ∀ y ∈ LI.blocksOf m, Within (Edge M) {b | b ∈ LI.blocksOf m} x y

/- A walk for each loop shows it. -/
theorem IR.LoopInfo.connected_of_walks {LI : LoopInfo} {M : Module} (walk : LoopId → List BlockId)
    (h : ∀ m < LI.loops.length, ∀ a ∈ (LI.headerOf m).toList,
      (a :: (walk m ++ [a])).IsChain (fun x y => y ∈ M.succsOf x ∧ y ∈ LI.blocksOf m) ∧
        ∀ b ∈ LI.blocksOf m, b ∈ a :: walk m) : LI.Connected M := by
  intro m hm x hx y hy
  obtain ⟨a, ha⟩ := LoopInfo.headerOf_some hm
  obtain ⟨hw, hall⟩ := h m hm a (Option.mem_toList.mpr ha)
  exact within_of_walk hw (hall x hx) (hall y hy)

/- Of each loop nested in `l` the list holds all blocks or none. -/
def WholeOrNone (LI : LoopInfo) (l : LoopId) (blocks : List BlockId) : Prop :=
  ∀ m < LI.loops.length, LI.Inner l m →
    (∀ b ∈ LI.blocksOf m, b ∈ blocks) ∨ ∀ b ∈ LI.blocksOf m, b ∉ blocks

theorem not_wholeOrNone {LI : LoopInfo} {l m : LoopId} {blocks : List BlockId} {b c : BlockId}
    (hm : m < LI.loops.length) (hin : LI.Inner l m) (hb : b ∈ LI.blocksOf m) (hc : c ∈ LI.blocksOf m)
    (hbs : b ∈ blocks) (hcs : c ∉ blocks) : ¬ WholeOrNone LI l blocks := by
  intro hwhole
  rcases hwhole m hm hin with h | h
  · exact hcs (h c hc)
  · exact h b hb hbs

section Scan
variable {M : Module} {LI : LoopInfo} {l : LoopId} {info : BlockId → Bool} {rpoOf : LoopId → List BlockId}

/- The scan meets the header of the loop or of one around it. -/
def HeaderMet (M : Module) (LI : LoopInfo) (l : LoopId) (rpo : List BlockId) (info : BlockId → Bool) (m : LoopId) : Prop :=
  ∃ k g, k ∈ LI.enclosing m ∧ LI.headerOf k = some g ∧ g ∈ cleanBlocks M LI l rpo info

/- A loop that a latch of `l` is the header of comes in with a loop around it, or the
scan stops before its blocks. -/
def LatchHeadedOut (M : Module) (LI : LoopInfo) (l : LoopId) (rpo : List BlockId) (info : BlockId → Bool) : Prop :=
  ∀ m h, LI.Inner l m → LI.headerOf m = some h → h ∈ LI.getLoopLatches M l →
    HeaderMet M LI l rpo info m ∨ ∀ b ∈ LI.blocksOf m, b ∉ cleanBlocks M LI l rpo info

theorem whole_of_headerMet (hLI : LI.Natural M) (hrpo : ∀ m, ReversePostOrder LI m (rpoOf m)) {m : LoopId}
    (hm : m < LI.loops.length) (hmet : HeaderMet M LI l (rpoOf l) info m) :
    ∀ b ∈ LI.blocksOf m, b ∈ iteratorSelector M LI l rpoOf (some info) := by
  obtain ⟨k, g, hk, hg, hc⟩ := hmet
  intro b hb
  refine (iteratorSelector_mem hLI (fun m => (hrpo m).mem) b).mpr ⟨g, hc, ?_⟩
  rw [takenWith_header hLI hg]
  exact LoopInfo.blocksOf_sub hLI hm hk hb

/- A block of a nested loop comes in by the header of a loop around it, or the scan meets the loop. -/
theorem headerMet_or_met (hLI : LI.Natural M) (hrpo : ∀ m, ReversePostOrder LI m (rpoOf m)) {m : LoopId}
    (hm : m < LI.loops.length) {b : BlockId} (hb : b ∈ LI.blocksOf m)
    (hsel : b ∈ iteratorSelector M LI l rpoOf (some info)) : HeaderMet M LI l (rpoOf l) info m ∨
      ∃ c ∈ LI.blocksOf m, c ∈ cleanBlocks M LI l (rpoOf l) info := by
  obtain ⟨bb, hbb, hbt⟩ := (iteratorSelector_mem hLI (fun m => (hrpo m).mem) b).mp hsel
  rcases takenWith_cases LI bb with ⟨-, hself⟩ | ⟨k, -, hkh, htake⟩
  · rw [hself, List.mem_singleton] at hbt
    exact .inr ⟨b, hb, hbt ▸ hbb⟩
  · rw [htake] at hbt
    obtain ⟨hk, hbbk⟩ := LoopInfo.header_mem hLI hkh
    rcases LoopInfo.nested_of_shared hLI hk hm hbt hb with h | h
    · exact .inl ⟨k, bb, h, hkh, hbb⟩
    · exact .inr ⟨bb, LoopInfo.blocksOf_sub hLI hk h hbbk, hbb⟩

/- A scan that meets a nested loop has met its header before, unless that is a latch of `l`. -/
theorem header_met_first (hLI : LI.Natural M) (hrpo : ∀ m, ReversePostOrder LI m (rpoOf m))
    {m : LoopId} (hin : LI.Inner l m) {h c : BlockId} (hh : LI.headerOf m = some h)
    (hlatch : h ∉ LI.getLoopLatches M l) (hc : c ∈ LI.blocksOf m) (hcc : c ∈ cleanBlocks M LI l (rpoOf l) info) :
    h ∈ cleanBlocks M LI l (rpoOf l) info := by
  obtain ⟨hm, hhm⟩ := LoopInfo.header_mem hLI hh
  by_cases hch : c = h
  · exact hch ▸ hcc
  · have hhl := LoopInfo.blocksOf_sub hLI hm hin.2 hhm
    have hhead : LI.headerOf l ≠ some h := fun he => header_notMem hLI hm hin he hhm
    have hbody : h ∈ bodyBlocks M LI l (rpoOf l) := mem_bodyBlocks.mpr ⟨((hrpo l).mem h).mpr hhl, hhead, hlatch⟩
    exact mem_takeWhile_of_before (hrpo l).nodup _ _ hbody hcc ((hrpo l).header_first m h hh hin.2 c hc hch)

theorem iteratorSelector_whole_iff (hLI : LI.Natural M) (hrpo : ∀ m, ReversePostOrder LI m (rpoOf m)) :
    WholeOrNone LI l (iteratorSelector M LI l rpoOf (some info)) ↔ LatchHeadedOut M LI l (rpoOf l) info := by
  have hmem : ∀ b, b ∈ iteratorSelector M LI l rpoOf (some info) ↔ _ :=
    iteratorSelector_mem hLI fun m => (hrpo m).mem
  constructor
  · intro hwhole m h hin hh hlatch
    obtain ⟨hm, hhm⟩ := LoopInfo.header_mem hLI hh
    rcases hwhole m hm hin with hall | hnone
    · obtain ⟨bb, hbb, hbt⟩ := (hmem h).mp (hall h hhm)
      rcases takenWith_cases LI bb with ⟨-, hself⟩ | ⟨k, -, hkh, htake⟩
      · rw [hself, List.mem_singleton] at hbt
        exact absurd hlatch (hbt ▸ (mem_bodyBlocks.mp (cleanBlocks_body hbb)).2.2)
      · rw [htake] at hbt
        have hkm := LoopInfo.enclosing_of_header hLI (LoopInfo.header_mem hLI hkh).1 hh hbt
        exact .inl ⟨k, bb, hkm, hkh, hbb⟩
    · exact .inr fun b hb hc => hnone b hb ((hmem b).mpr ⟨b, hc, self_takenWith hLI b⟩)
  · intro hcond m hm hin
    by_cases hsel : ∃ b ∈ LI.blocksOf m, b ∈ iteratorSelector M LI l rpoOf (some info)
    · obtain ⟨b, hb, hbs⟩ := hsel
      refine .inl (whole_of_headerMet hLI hrpo hm ?_)
      rcases headerMet_or_met hLI hrpo hm hb hbs with hmet | ⟨c, hc, hcc⟩
      · exact hmet
      · obtain ⟨h, hh⟩ := LoopInfo.headerOf_some hm
        by_cases hlatch : h ∈ LI.getLoopLatches M l
        · exact (hcond m h hin hh hlatch).resolve_right fun hno => hno c hc hcc
        · have hhc := header_met_first hLI hrpo hin hh hlatch hc hcc
          exact ⟨m, h, LoopInfo.self_enclosing hLI hm, hh, hhc⟩
    · exact .inr fun b hb hbs => hsel ⟨b, hb, hbs⟩

end Scan

section Heaviest
variable {M : Module} {LI : LoopInfo} {l : LoopId} {payload : List BlockId}

/- A nested loop that payload reaches may be searched as a whole. -/
def ReachedLoopsAllowed (M : Module) (LI : LoopInfo) (l : LoopId) (payload : List BlockId) : Prop :=
  ∀ m < LI.loops.length, LI.Inner l m → ∀ b ∈ LI.blocksOf m, PayloadReachable M LI l payload b →
    ∀ c ∈ LI.blocksOf m, Allowed M LI l payload c

/- A root that another root leads to is in no nested loop of more than one block. -/
def ReachedRootsAlone (M : Module) (LI : LoopInfo) (l : LoopId) (payload : List BlockId) : Prop :=
  ∀ m < LI.loops.length, LI.Inner l m → ∀ r ∈ LI.blocksOf m, Allowed M LI l payload r →
    EnteredFromIterator M LI l payload r → ∀ r', r' ≠ r → Allowed M LI l payload r' →
    EnteredFromIterator M LI l payload r' → Within (Edge M) {c | Allowed M LI l payload c} r' r →
    ∀ c ∈ LI.blocksOf m, c = r

/- No sum of payload weights wraps around. -/
def WeightsFit (weights : BlockId → Nat) (payload : List BlockId) : Prop := (payload.map weights).sum < 2 ^ 32

theorem treeWeight_of_fit {weights : BlockId → Nat} (hfit : WeightsFit weights payload) {g : BlockId × List BlockId}
    (hnd : g.2.Nodup) (hsub : g.2 ⊆ payload) : treeWeight weights g = (g.2.map weights).sum := by
  obtain ⟨bs, hperm, hbs⟩ := hnd.subperm hsub
  have hle : (g.2.map weights).sum ≤ (payload.map weights).sum := by
    rw [← (hperm.map weights).sum_eq]
    exact (hbs.map weights).sum_le_sum fun _ _ => Nat.zero_le _
  rw [treeWeight, unsignedSum_eq]
  exact Nat.mod_eq_of_lt (Nat.lt_of_le_of_lt hle hfit)

/- The tree that is returned holds all of a nested loop or none of it, or it is a root that
a tree before it holds as well. -/
theorem TreeRun.whole (hLI : LI.Natural M) (hconn : LI.Connected M) (hl : l < LI.loops.length)
    {pre post : RootGroups} {g : BlockId × List BlockId} (h : TreeRun M LI l payload (pre ++ g :: post)) {m : LoopId}
    (hm : m < LI.loops.length) (hall : ∀ c ∈ LI.blocksOf m, Allowed M LI l payload c) :
    (∀ b ∈ LI.blocksOf m, b ∈ g.2) ∨ (∀ b ∈ LI.blocksOf m, b ∉ g.2) ∨
      (∀ b, b ∈ g.2 ↔ b = g.1) ∧ ∃ x ∈ pre, g.1 ∈ x.2 := by
  obtain ⟨seen, hsearch⟩ := h.searches
  have hC : {b | b ∈ LI.blocksOf m} ⊆ payloadSet payload \ {b | b ∈ blacklistedBlocks M LI l payload} := by
    rw [allowed_set hLI hl]
    exact hall
  have hcases := hsearch.connected (Set.union_empty _).symm (fun a ha => absurd ha (Set.notMem_empty a))
    (h.allowed hLI hl) hC (hconn m hm) (List.map_append ..) (List.map_append ..) (by rw [List.length_map, List.length_map])
  rcases hcases with hw | hn | ⟨hs, hU⟩
  · exact .inl fun b hb => hw hb
  · exact .inr (.inl hn)
  · refine .inr (.inr ⟨fun b => Set.ext_iff.mp hs b, ?_⟩)
    obtain ⟨x, hx, hr⟩ := hU.resolve_left (Set.notMem_empty _)
    obtain ⟨y, hy, rfl⟩ := List.mem_map.mp hx
    exact ⟨y, hy, hr⟩

/- Where whole loops may be searched, a tree holds loops in part only if it is a root that a tree before
it holds as well. -/
theorem TreeRun.wholeOrNone (hLI : LI.Natural M) (hconn : LI.Connected M) (hl : l < LI.loops.length)
    (hall : ReachedLoopsAllowed M LI l payload) {pre post : RootGroups} {g : BlockId × List BlockId}
    (h : TreeRun M LI l payload (pre ++ g :: post))
    (hroot : (∀ b, b ∈ g.2 ↔ b = g.1) → ∀ x ∈ pre, g.1 ∈ x.2 → ∀ m < LI.loops.length, LI.Inner l m →
      g.1 ∈ LI.blocksOf m → ∀ c ∈ LI.blocksOf m, c = g.1) : WholeOrNone LI l g.2 := by
  have hmem : g ∈ pre ++ g :: post := List.mem_append_right _ (List.mem_cons_self ..)
  intro m hm hin
  by_cases hmeet : ∃ b ∈ LI.blocksOf m, b ∈ g.2
  · obtain ⟨b, hb, hbg⟩ := hmeet
    have hallowed := hall m hm hin b hb ((h.covers hLI hl b).mp ⟨g, hmem, hbg⟩)
    rcases h.whole hLI hconn hl hm hallowed with hwhole | hnone | ⟨hs, x, hx, hr⟩
    · exact .inl hwhole
    · exact .inr hnone
    · have hroot' := hroot hs x hx hr m hm hin ((hs b).mp hbg ▸ hb)
      exact .inl fun c hc => (hs c).mpr (hroot' c hc)
  · exact .inr fun b hb hbg => hmeet ⟨b, hb, hbg⟩

/- With weights that fit, the tree before it weighs as much: it is not the one returned. -/
theorem heaviestTree_whole_of_fit (hLI : LI.Natural M) (hconn : LI.Connected M) (hl : l < LI.loops.length)
    (hall : ReachedLoopsAllowed M LI l payload) {addr : BlockId → Nat} {pick : BlockId → Nat → Nat}
    {weights : BlockId → Nat} (hfit : WeightsFit weights payload) {blocks : List BlockId}
    (hrun : heaviestTree addr pick weights M LI l payload = some blocks) : WholeOrNone LI l blocks := by
  obtain ⟨trees, g, htrees, rfl, hg⟩ := heaviestTree_some hrun
  obtain ⟨groups, hgroups, htree, -⟩ := selectPayloadTrees_run addr pick hLI hl payload
  obtain rfl := Option.some.inj (htrees.symm.trans hgroups)
  obtain ⟨pre, post, rfl, hpre, -⟩ := maxElement_spec hg
  have hmem : g ∈ pre ++ g :: post := List.mem_append_right _ (List.mem_cons_self ..)
  have hsub : ∀ x ∈ pre ++ g :: post, x.2 ⊆ payload := fun x hx b hb => ((htree.grown hLI hl hx).2 b hb).1.listed
  refine htree.wholeOrNone hLI hconn hl hall fun hs x hx hr => ?_
  have hxm : x ∈ pre ++ g :: post := List.mem_append_left _ hx
  have hlt := hpre x hx
  rw [treeWeight_of_fit hfit (htree.nodup x hxm) (hsub x hxm),
    treeWeight_of_fit hfit (htree.nodup g hmem) (hsub g hmem)] at hlt
  have hone : g.2.Perm [g.1] := by
    refine (List.perm_ext_iff_of_nodup (htree.nodup g hmem) (List.nodup_singleton g.1)).mpr fun b => ?_
    rw [hs, List.mem_singleton]
  rw [(hone.map weights).sum_eq, List.map_singleton, List.sum_singleton] at hlt
  have hle : weights g.1 ≤ (x.2.map weights).sum :=
    List.single_le_sum (fun _ _ => Nat.zero_le _) _ (List.mem_map_of_mem hr)
  omega

/- With any weights, only a root that is alone in its loop may come without the tree before it. -/
theorem heaviestTree_whole_of_alone (hLI : LI.Natural M) (hconn : LI.Connected M) (hl : l < LI.loops.length)
    (hall : ReachedLoopsAllowed M LI l payload) (halone : ReachedRootsAlone M LI l payload)
    {addr : BlockId → Nat} {pick : BlockId → Nat → Nat} {weights : BlockId → Nat} {blocks : List BlockId}
    (hrun : heaviestTree addr pick weights M LI l payload = some blocks) : WholeOrNone LI l blocks := by
  obtain ⟨trees, g, htrees, rfl, hg⟩ := heaviestTree_some hrun
  obtain ⟨groups, hgroups, htree, hfst⟩ := selectPayloadTrees_run addr pick hLI hl payload
  obtain rfl := Option.some.inj (htrees.symm.trans hgroups)
  obtain ⟨pre, post, rfl, -, -⟩ := maxElement_spec hg
  have hmem : g ∈ pre ++ g :: post := List.mem_append_right _ (List.mem_cons_self ..)
  refine htree.wholeOrNone hLI hconn hl hall fun hs x hx hr m hm hin hg => ?_
  have hxm : x ∈ pre ++ g :: post := List.mem_append_left _ hx
  obtain ⟨hra, hre⟩ := (htree.roots g.1).mp (List.mem_map_of_mem hmem)
  obtain ⟨hxa, hxe⟩ := (htree.roots x.1).mp (List.mem_map_of_mem hxm)
  have hne : x.1 ≠ g.1 := by
    have hnd := sortedRoots_nodup addr M LI l payload
    rw [← hfst, List.map_append, List.map_cons] at hnd
    exact (List.nodup_append.mp hnd).2.2 x.1 (List.mem_map_of_mem hx) g.1 (List.mem_cons_self ..)
  obtain ⟨-, hgrown⟩ := htree.grown hLI hl hxm
  have hpath : Within (Edge M) {c | Allowed M LI l payload c} x.1 g.1 :=
    ((hgrown g.1 hr).2).mono fun c hc => (hgrown c hc).1
  exact halone m hm hin g.1 hg hra hre x.1 hne hxa hxe hpath

theorem reachedLoops_of_whole (hLI : LI.Natural M) (hl : l < LI.loops.length) (hnd : payload.Nodup)
    (hwhole : ∀ addr pick weights blocks, WeightsFit weights payload →
      heaviestTree addr pick weights M LI l payload = some blocks → WholeOrNone LI l blocks) :
    ReachedLoopsAllowed M LI l payload := by
  intro m hm hin b hb hreach c hc
  obtain ⟨blocks, hrun, hbb⟩ := heaviestTree_weightOf hLI hl id (fun _ _ => 0) hreach
  have hfit : WeightsFit (weightOf b) payload := by
    have hcount := List.nodup_iff_count_le_one.mp hnd b
    rw [WeightsFit, sum_weightOf]
    omega
  have hall := (hwhole _ _ _ _ hfit hrun m hm hin).resolve_right fun hno => hno b hb hbb
  obtain ⟨trees, g, htrees, rfl, hg⟩ := heaviestTree_some hrun
  obtain ⟨groups, hgroups, htree, -⟩ := selectPayloadTrees_run id (fun _ _ => 0) hLI hl payload
  obtain rfl := Option.some.inj (htrees.symm.trans hgroups)
  exact ((htree.grown hLI hl (maxElement_le hg).1).2 c (hall c hc)).1

/- Weights that wrap around to nothing on a tree that holds both blocks. -/
def wrapWeights (r r' b : BlockId) : Nat := weightOf r b + (2 ^ 32 - 1) * weightOf r' b

theorem treeWeight_wrapWeights (r r' : BlockId) {g : BlockId × List BlockId} (hnd : g.2.Nodup) :
    treeWeight (wrapWeights r r') g =
      if r ∈ g.2 then if r' ∈ g.2 then 0 else 1 else if r' ∈ g.2 then 2 ^ 32 - 1 else 0 := by
  have hsum : (g.2.map (wrapWeights r r')).sum = g.2.count r + (2 ^ 32 - 1) * g.2.count r' := by
    rw [← sum_weightOf, ← sum_weightOf, ← List.sum_map_mul_left, ← List.sum_map_add]
    rfl
  rw [treeWeight, unsignedSum_eq, hsum, hnd.count, hnd.count]
  by_cases hr : r ∈ g.2 <;> by_cases hr' : r' ∈ g.2 <;> simp [hr, hr']

/- With those weights the tree of `r` is returned when `r'` is searched before it and leads to it. -/
theorem heaviestTree_wrapWeights (hLI : LI.Natural M) (hl : l < LI.loops.length) {r r' : BlockId} (hne : r' ≠ r)
    (hr : Allowed M LI l payload r) (hre : EnteredFromIterator M LI l payload r) (hr' : Allowed M LI l payload r')
    (hre' : EnteredFromIterator M LI l payload r') (hpath : Within (Edge M) {c | Allowed M LI l payload c} r' r) :
    ∃ blocks, heaviestTree (addrBefore r') (fun _ _ => 0) (wrapWeights r r') M LI l payload = some blocks ∧
      r ∈ blocks ∧ ∀ b ∈ blocks, b = r := by
  obtain ⟨g, groups, hrun, htree, hg, hrest, -⟩ :=
    selectPayloadTrees_first (fun _ _ => 0) hLI hl (fun _ => addrBefore_lt) hr' hre'
  have hrg : r ∈ g := (hg r).mpr hpath
  have hr'g : r' ∈ g := (hg r').mpr .refl
  obtain ⟨x, hx, hxr⟩ : ∃ x ∈ groups, x.1 = r := by
    have hroot := (htree.roots r).mpr ⟨hr, hre⟩
    rw [List.map_cons, List.mem_cons] at hroot
    exact List.mem_map.mp (hroot.resolve_left fun he => hne he.symm)
  have hnot : ∀ y ∈ groups, r' ∉ y.2 := fun y hy hm =>
    ((hrest y hy).2 r' hm).elim (fun he => (hrest y hy).1 he.symm) fun hno => hno hr'g
  have hone : treeWeight (wrapWeights r r') x = 1 := by
    have hxm : x ∈ (r', g) :: groups := List.mem_cons_of_mem _ hx
    have hrx : r ∈ x.2 := hxr ▸ (htree.grown hLI hl hxm).1
    rw [treeWeight_wrapWeights r r' (htree.nodup x hxm), if_pos hrx, if_neg (hnot x hx)]
  obtain ⟨y, hy⟩ := maxElement_some (wrapWeights r r') (List.cons_ne_nil (r', g) groups)
  obtain ⟨hym, hle⟩ := maxElement_le hy
  have hpos := hle x (List.mem_cons_of_mem _ hx)
  rw [hone, treeWeight_wrapWeights r r' (htree.nodup y hym)] at hpos
  -- the first tree holds both blocks, and no other one holds `r'`
  have hygr : y ∈ groups := by
    rcases List.mem_cons.mp hym with rfl | h
    · rw [if_pos hrg, if_pos hr'g] at hpos
      omega
    · exact h
  have hry : r ∈ y.2 := by
    by_contra hno
    rw [if_neg hno, if_neg (hnot y hygr)] at hpos
    omega
  have hyr : y.1 = r := (((hrest y hygr).2 r hry).resolve_right fun hno => hno hrg).symm
  have hchain : ∀ b, Within (Edge M) {c | c ∈ y.2} y.1 b → b = r := by
    intro b hb
    induction hb with
    | refl => exact hyr
    | @tail a b _ hab ih =>
      have hbg : b ∈ g := (hg b).mpr (hpath.tail ⟨ih ▸ hab.1, ((htree.grown hLI hl hym).2 b hab.2).1⟩)
      exact (((hrest y hygr).2 b hab.2).resolve_right fun hno => hno hbg).trans hyr
  refine ⟨y.2, ?_, hry, fun b hb => hchain b ((htree.grown hLI hl hym).2 b hb).2⟩
  rw [heaviestTree, hrun, Option.bind_eq_bind, Option.bind_some, hy]
  rfl

theorem reachedRoots_of_whole (hLI : LI.Natural M) (hl : l < LI.loops.length)
    (hwhole : ∀ addr pick weights blocks, heaviestTree addr pick weights M LI l payload = some blocks →
      WholeOrNone LI l blocks) : ReachedRootsAlone M LI l payload := by
  intro m hm hin r hrm hr hre r' hne hr' hre' hpath c hc
  obtain ⟨blocks, hrun, hrb, hsing⟩ := heaviestTree_wrapWeights hLI hl hne hr hre hr' hre' hpath
  have hall := (hwhole _ _ _ _ hrun m hm hin).resolve_right fun hno => hno r hrm hrb
  exact hsing c (hall c hc)

end Heaviest

section Selectors
variable {M : Module} {LI : LoopInfo} {l : LoopId} {info : BlockId → Bool} {rpoOf : LoopId → List BlockId}

theorem getPayloadOnlyBlocks_nodup (hLI : LI.Natural M) (hl : l < LI.loops.length) :
    (getPayloadOnlyBlocks LI l info).Nodup := (hLI.blocks_nodup l hl).filter info

/- Both selectors take each nested loop whole or not at all exactly when what the scan
takes of the loops that latches head comes with a loop around them, and payload reaches
only nested loops that the searches may visit as a whole. When weights may wrap around,
no root may be reached from another inside a loop of several blocks either. -/
theorem selectors_whole_iff (hLI : LI.Natural M) (hconn : LI.Connected M) (hl : l < LI.loops.length)
    (hrpo : ∀ m, ReversePostOrder LI m (rpoOf m)) :
    ((WholeOrNone LI l (iteratorSelector M LI l rpoOf (some info)) ∧
      ∀ addr pick weights blocks, WeightsFit weights (getPayloadOnlyBlocks LI l info) →
        heaviestTree addr pick weights M LI l (getPayloadOnlyBlocks LI l info) = some blocks →
        WholeOrNone LI l blocks) ↔
      LatchHeadedOut M LI l (rpoOf l) info ∧ ReachedLoopsAllowed M LI l (getPayloadOnlyBlocks LI l info)) ∧
    ((WholeOrNone LI l (iteratorSelector M LI l rpoOf (some info)) ∧
      ∀ addr pick weights blocks,
        heaviestTree addr pick weights M LI l (getPayloadOnlyBlocks LI l info) = some blocks →
        WholeOrNone LI l blocks) ↔
      LatchHeadedOut M LI l (rpoOf l) info ∧ ReachedLoopsAllowed M LI l (getPayloadOnlyBlocks LI l info) ∧
        ReachedRootsAlone M LI l (getPayloadOnlyBlocks LI l info)) := by
  have hnd : (getPayloadOnlyBlocks LI l info).Nodup := getPayloadOnlyBlocks_nodup hLI hl
  rw [iteratorSelector_whole_iff hLI hrpo]
  constructor
  · refine and_congr_right fun _ => ⟨reachedLoops_of_whole hLI hl hnd, ?_⟩
    intro hall addr pick weights blocks hfit hrun
    exact heaviestTree_whole_of_fit hLI hconn hl hall hfit hrun
  · refine and_congr_right fun _ => ⟨fun hwhole => ⟨?_, reachedRoots_of_whole hLI hl hwhole⟩, ?_⟩
    · exact reachedLoops_of_whole hLI hl hnd fun addr pick weights blocks _ => hwhole addr pick weights blocks
    · rintro ⟨hall, halone⟩ addr pick weights blocks hrun
      exact heaviestTree_whole_of_alone hLI hconn hl hall halone hrun

/- The loop of 2, 3 and 5 is nested in that of 1. The latches of the outer loop are 2 and 4. -/
def latchHeadedLoop : Module where
  funcs := [{ id := 9, params := [], isVarArg := false, blocks :=
    [⟨0, [Inst.uncondBr 10 1], false⟩,
     ⟨1, [⟨11, .br, .void, [.const (.int 1 0)], [], [2, 6]⟩], false⟩,
     ⟨2, [⟨12, .br, .void, [.const (.int 1 0)], [], [1, 3]⟩], false⟩,
     ⟨3, [Inst.uncondBr 13 5], false⟩,
     ⟨5, [⟨15, .br, .void, [.const (.int 1 0)], [], [2, 4]⟩], false⟩,
     ⟨4, [Inst.uncondBr 14 1], false⟩,
     ⟨6, [⟨16, .ret, .void, [], [], []⟩], false⟩] }]
  nextId := 20
  valueName := fun _ => ""
  initUsesBlockAddress := fun _ => false

def latchHeadedLoops : LoopInfo where
  loops := [⟨1, [1, 2, 3, 5, 4], none⟩, ⟨2, [2, 3, 5], some 0⟩]
  bbMap := fun b => [(1, 0), (2, 1), (3, 1), (5, 1), (4, 0)].lookup b

theorem latchHeadedLoops_natural : latchHeadedLoops.Natural latchHeadedLoop :=
  LoopInfo.natural_of_lookup (by decide) (by decide) (by decide) (by decide) (by decide) (by decide)

theorem latchHeadedLoops_connected : latchHeadedLoops.Connected latchHeadedLoop :=
  LoopInfo.connected_of_walks (fun m => if m = 0 then [2, 3, 5, 4] else [3, 5]) (by decide)

theorem latchHeadedLoops_rpo (m : LoopId) : ReversePostOrder latchHeadedLoops m (latchHeadedLoops.blocksOf m) :=
  reversePostOrder_blocksOf latchHeadedLoops_natural (by decide) m

theorem selectors_whole_iff_latchHeadedLoop :
    ((WholeOrNone latchHeadedLoops 0 (iteratorSelector latchHeadedLoop latchHeadedLoops 0 latchHeadedLoops.blocksOf
        (some fun b => b ∈ [2, 3])) ∧
      ∀ addr pick weights blocks, WeightsFit weights (getPayloadOnlyBlocks latchHeadedLoops 0 fun b => b ∈ [2, 3]) →
        heaviestTree addr pick weights latchHeadedLoop latchHeadedLoops 0
          (getPayloadOnlyBlocks latchHeadedLoops 0 fun b => b ∈ [2, 3]) = some blocks →
        WholeOrNone latchHeadedLoops 0 blocks) ↔
      LatchHeadedOut latchHeadedLoop latchHeadedLoops 0 (latchHeadedLoops.blocksOf 0) (fun b => b ∈ [2, 3]) ∧
        ReachedLoopsAllowed latchHeadedLoop latchHeadedLoops 0
          (getPayloadOnlyBlocks latchHeadedLoops 0 fun b => b ∈ [2, 3])) ∧
    ((WholeOrNone latchHeadedLoops 0 (iteratorSelector latchHeadedLoop latchHeadedLoops 0 latchHeadedLoops.blocksOf
        (some fun b => b ∈ [2, 3])) ∧
      ∀ addr pick weights blocks,
        heaviestTree addr pick weights latchHeadedLoop latchHeadedLoops 0
          (getPayloadOnlyBlocks latchHeadedLoops 0 fun b => b ∈ [2, 3]) = some blocks →
        WholeOrNone latchHeadedLoops 0 blocks) ↔
      LatchHeadedOut latchHeadedLoop latchHeadedLoops 0 (latchHeadedLoops.blocksOf 0) (fun b => b ∈ [2, 3]) ∧
        ReachedLoopsAllowed latchHeadedLoop latchHeadedLoops 0
          (getPayloadOnlyBlocks latchHeadedLoops 0 fun b => b ∈ [2, 3]) ∧
        ReachedRootsAlone latchHeadedLoop latchHeadedLoops 0
          (getPayloadOnlyBlocks latchHeadedLoops 0 fun b => b ∈ [2, 3])) :=
  selectors_whole_iff latchHeadedLoops_natural latchHeadedLoops_connected (by decide) latchHeadedLoops_rpo

/- The scan takes 3 without the header 2, which is a latch, and the weighted selector
takes 2 and 3 without 5. -/
theorem latchHeadedLoop_cut : latchHeadedLoops.Natural latchHeadedLoop ∧ latchHeadedLoops.Connected latchHeadedLoop ∧
    ¬ WholeOrNone latchHeadedLoops 0 (iteratorSelector latchHeadedLoop latchHeadedLoops 0
      latchHeadedLoops.blocksOf (some fun b => b ∈ [2, 3])) ∧
    weightedSelector id (fun _ _ => 0) latchHeadedLoop latchHeadedLoops 0 (some fun b => b ∈ [2, 3]) = some [3, 2] ∧
    ¬ WholeOrNone latchHeadedLoops 0 [3, 2] := by
  have hin : latchHeadedLoops.Inner 0 1 := ⟨by decide, by decide⟩
  have hlt : 1 < latchHeadedLoops.loops.length := by decide
  have hmem : ∀ b ∈ [2, 3, 5], b ∈ latchHeadedLoops.blocksOf 1 := by decide
  refine ⟨latchHeadedLoops_natural, latchHeadedLoops_connected, ?_, by decide, ?_⟩
  · exact not_wholeOrNone hlt hin (hmem 3 (by decide)) (hmem 2 (by decide)) (by decide) (by decide)
  · exact not_wholeOrNone hlt hin (hmem 3 (by decide)) (hmem 5 (by decide)) (by decide) (by decide)

end Selectors

end Atrox
