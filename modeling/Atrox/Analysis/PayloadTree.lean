import Mathlib.Data.List.Dedup
import Mathlib.Data.List.Sort
import Atrox.IR.NaturalLoops
import Atrox.Lib.Worklist

/-!
# Trees of payload blocks (PayloadTree.cpp)

`selectPayloadTrees` grows a group of payload blocks from each root, one root after
the other in the order of block addresses, with one blacklist for all of them.
-/

namespace Atrox
open IR Lib

/- `BlockRootGroupMapTy`: the groups by their roots, in the order of block addresses. -/
abbrev RootGroups := List (BlockId × List BlockId)

/- Blocks of the loop that are not in the payload list. -/
def iteratorBlocks (LI : LoopInfo) (l : LoopId) (payload : List BlockId) : List BlockId :=
  (LI.blocksOf l).filter fun b => b ∉ payload

/- Blocks of the loop nested in `l` that the block is the header of. -/
def headedBlocks (LI : LoopInfo) (l : LoopId) (bb : BlockId) : List BlockId :=
  if LI.isLoopHeader bb && decide (LI.loopDepth bb > (LI.enclosing l).length) then
    ((LI.getLoopFor bb).map LI.blocksOf).getD []
  else []

/- What is blacklisted before the first search. -/
def blacklistedBlocks (M : Module) (LI : LoopInfo) (l : LoopId) (payload : List BlockId) : List BlockId :=
  iteratorBlocks LI l payload ++ (LI.getLoopLatch M l).toList ++ (LI.headerOf l).toList ++
    (iteratorBlocks LI l payload).flatMap (headedBlocks LI l)

/- Payload blocks that an iterator block branches to. -/
def rootBlocks (M : Module) (LI : LoopInfo) (l : LoopId) (payload : List BlockId) : List BlockId :=
  payload.dedup.filter fun e => e ∉ blacklistedBlocks M LI l payload ∧
    ∃ p ∈ M.predsOf e, p ∈ iteratorBlocks LI l payload

/- `worklist`, `blacklistedBlocks` and the group of the root. -/
structure TreeSearch where
  worklist : List BlockId
  blacklisted : List BlockId
  group : List BlockId

/- One round of the inner loop, for the block at `worklist.begin()`. -/
def visitBlock (M : Module) (payload : List BlockId) (bb : BlockId) (s : TreeSearch) : TreeSearch :=
  let blacklisted := s.blacklisted.insert bb
  { worklist := (M.succsOf bb).foldl (fun ws b => if b ∉ blacklisted ∧ b ∈ payload then ws.insert b else ws)
      (s.worklist.erase bb)
    blacklisted := blacklisted
    group := s.group.insert bb }

/- The search of one root. `SmallPtrSet` has an order of its own: `pick` says which
element of the work list comes first in each round. -/
def searchTree (M : Module) (payload : List BlockId) (pick : Nat → Nat) : Nat → TreeSearch → Option TreeSearch
  | 0, s => if s.worklist.isEmpty then some s else none
  | fuel + 1, s =>
    match s.worklist[pick fuel % s.worklist.length]? with
    | none => some s
    | some bb => searchTree M payload pick fuel (visitBlock M payload bb s)

def searchRoot (M : Module) (payload : List BlockId) (pick : BlockId → Nat → Nat)
    (st : List BlockId × RootGroups) (root : BlockId) : Option (List BlockId × RootGroups) := do
  let s ← searchTree M payload (pick root) (payload.length + 1) ⟨[root], st.1, [root]⟩
  return (s.blacklisted, st.2 ++ [(root, s.group)])

/- `SelectPayloadTrees`. -/
def selectPayloadTrees (addr : BlockId → Nat) (pick : BlockId → Nat → Nat) (M : Module) (LI : LoopInfo)
    (l : LoopId) (payload : List BlockId) : Option RootGroups := do
  let roots := (rootBlocks M LI l payload).insertionSort fun x y => addr x ≤ addr y
  let st ← roots.foldlM (searchRoot M payload pick) (blacklistedBlocks M LI l payload, [])
  return st.2

section Refinement

/- The search as sets. -/
def TreeSearch.sets (s : TreeSearch) : Search BlockId :=
  ⟨{b | b ∈ s.worklist}, {b | b ∈ s.blacklisted}, {b | b ∈ s.group}⟩

def Edge (M : Module) (x y : BlockId) : Prop := y ∈ M.succsOf x

def payloadSet (payload : List BlockId) : Set BlockId := {b | b ∈ payload}

theorem insertAll_mem (ok : BlockId → Prop) [DecidablePred ok] (bs ws : List BlockId) (b : BlockId) :
    b ∈ bs.foldl (fun ws b => if ok b then ws.insert b else ws) ws ↔ b ∈ ws ∨ b ∈ bs ∧ ok b := by
  induction bs generalizing ws with
  | nil => simp
  | cons c bs ih =>
    rw [List.foldl_cons, ih]
    by_cases hc : ok c
    · rw [if_pos hc, List.mem_insert_iff]
      constructor
      · rintro ((rfl | h) | ⟨h, hok⟩)
        · exact .inr ⟨List.mem_cons_self .., hc⟩
        · exact .inl h
        · exact .inr ⟨List.mem_cons_of_mem _ h, hok⟩
      · rintro (h | ⟨h, hok⟩)
        · exact .inl (.inr h)
        · rcases List.mem_cons.mp h with rfl | h
          · exact .inl (.inl rfl)
          · exact .inr ⟨h, hok⟩
    · rw [if_neg hc]
      refine or_congr_right (and_congr_left fun hok => ?_)
      rw [List.mem_cons]
      exact ⟨.inr, fun h => h.resolve_left fun he => hc (he ▸ hok)⟩

theorem insertAll_nodup (ok : BlockId → Prop) [DecidablePred ok] (bs : List BlockId) {ws : List BlockId}
    (h : ws.Nodup) : (bs.foldl (fun ws b => if ok b then ws.insert b else ws) ws).Nodup := by
  induction bs generalizing ws with
  | nil => exact h
  | cons c bs ih =>
    refine ih ?_
    dsimp only
    split
    · exact h.insert
    · exact h

variable (M : Module) (payload : List BlockId)

/- A round is a visit. -/
theorem visitBlock_visit {s : TreeSearch} (hnd : s.worklist.Nodup) {bb : BlockId} (hbb : bb ∈ s.worklist) :
    Search.Visit (Edge M) (payloadSet payload) bb s.sets (visitBlock M payload bb s).sets := by
  refine ⟨hbb, ?_, ?_, ?_⟩
  · ext b
    exact List.mem_insert_iff
  · ext b
    exact List.mem_insert_iff
  · ext b
    refine (insertAll_mem _ _ _ b).trans ?_
    rw [hnd.mem_erase_iff, List.mem_insert_iff]
    constructor
    · rintro (⟨hne, h⟩ | ⟨hs, hno, hok⟩)
      · exact .inl ⟨h, hne⟩
      · exact .inr ⟨hs, hok, hno⟩
    · rintro (⟨h, hne⟩ | ⟨hs, hok, hno⟩)
      · exact .inl ⟨hne, h⟩
      · exact .inr ⟨hs, hno, hok⟩

theorem visitBlock_nodup {s : TreeSearch} (hnd : s.worklist.Nodup) (bb : BlockId) :
    (visitBlock M payload bb s).worklist.Nodup := insertAll_nodup _ _ (hnd.erase bb)

theorem payloadSet_finite (payload : List BlockId) : (payloadSet payload).Finite := List.finite_toSet payload

/- With as many rounds as there are open payload blocks the work list runs empty. -/
theorem searchTree_ends (pick : Nat → Nat) (fuel : Nat) {s : TreeSearch} (hnd : s.worklist.Nodup)
    (hfresh : Search.Fresh (payloadSet payload) s.sets)
    (hfuel : (payloadSet payload \ s.sets.seen).ncard ≤ fuel) : ∃ s', searchTree M payload pick fuel s = some s' ∧
      Relation.ReflTransGen (Search.Step (Edge M) (payloadSet payload)) s.sets s'.sets ∧ s'.worklist = [] := by
  induction fuel generalizing s with
  | zero =>
    have hempty : s.worklist = [] := by
      refine List.eq_nil_iff_forall_not_mem.mpr fun b hb => ?_
      have hzero := (Set.ncard_eq_zero ((payloadSet_finite payload).subset Set.sdiff_subset)).mp
        (Nat.le_zero.mp hfuel)
      have hm := hfresh (show b ∈ s.sets.work from hb)
      rw [hzero] at hm
      exact hm
    exact ⟨s, by rw [searchTree, hempty]; rfl, .refl, hempty⟩
  | succ fuel ih =>
    rw [searchTree]
    cases hpick : s.worklist[pick fuel % s.worklist.length]? with
    | none =>
      have hle := List.getElem?_eq_none_iff.mp hpick
      have hempty : s.worklist = [] := by
        by_contra hne
        have hlt := Nat.mod_lt (pick fuel) (List.length_pos_iff.mpr hne)
        omega
      exact ⟨s, rfl, .refl, hempty⟩
    | some bb =>
      have hv := visitBlock_visit M payload hnd (List.mem_of_getElem? hpick)
      have hlt := Search.open_lt (payloadSet_finite payload) hfresh hv
      have hnext := Search.fresh_of_visit hv (Set.sdiff_subset.trans hfresh)
      obtain ⟨s', hrun, hsteps, hempty⟩ := ih (visitBlock_nodup M payload hnd bb) hnext (by omega)
      exact ⟨s', hrun, .head ⟨bb, hv⟩ hsteps, hempty⟩

/- A group is a set. -/
theorem searchTree_group (pick : Nat → Nat) (fuel : Nat) {s s' : TreeSearch} (hnd : s.group.Nodup)
    (h : searchTree M payload pick fuel s = some s') : s'.group.Nodup := by
  induction fuel generalizing s with
  | zero =>
    rw [searchTree] at h
    split at h
    · exact Option.some.inj h ▸ hnd
    · exact nomatch h
  | succ fuel ih =>
    rw [searchTree] at h
    split at h
    · exact Option.some.inj h ▸ hnd
    · exact ih hnd.insert h

/- The search of a root, whatever is blacklisted when it starts. -/
theorem searchTree_done (pick : Nat → Nat) (root : BlockId) (blacklisted : List BlockId) :
    ∃ s, searchTree M payload pick (payload.length + 1) ⟨[root], blacklisted, [root]⟩ = some s ∧
      Search.Done (Edge M) (payloadSet payload) root {b | b ∈ blacklisted} s.sets := by
  have hstart : (⟨[root], blacklisted, [root]⟩ : TreeSearch).sets = Search.start root {b | b ∈ blacklisted} := by
    simp only [TreeSearch.sets, Search.start, List.mem_singleton]
    rfl
  have hfirst : searchTree M payload pick (payload.length + 1) ⟨[root], blacklisted, [root]⟩ =
      searchTree M payload pick payload.length (visitBlock M payload root ⟨[root], blacklisted, [root]⟩) := by
    rw [searchTree]
    simp only [List.length_singleton, Nat.mod_one, List.getElem?_cons_zero]
  have hv := visitBlock_visit M payload (s := ⟨[root], blacklisted, [root]⟩)
    (List.nodup_singleton root) (List.mem_singleton_self root)
  rw [hstart] at hv
  have hcard : (payloadSet payload).ncard ≤ payload.length := by
    have hfin : payloadSet payload = (payload.toFinset : Set BlockId) := by
      ext b
      simp [payloadSet]
    rw [hfin, Set.ncard_coe_finset]
    exact payload.toFinset_card_le
  have hle := Set.ncard_le_ncard (s := payloadSet payload \
    (visitBlock M payload root ⟨[root], blacklisted, [root]⟩).sets.seen) Set.sdiff_subset (payloadSet_finite payload)
  obtain ⟨s, hrun, hsteps, hempty⟩ := searchTree_ends M payload pick payload.length
    (visitBlock_nodup M payload (List.nodup_singleton root) root) (Search.fresh_first hv) (hle.trans hcard)
  refine ⟨s, hfirst.trans hrun, .head ⟨root, hv⟩ hsteps, ?_⟩
  ext b
  simp [TreeSearch.sets, hempty]

/- The loop over the roots is a sequence of searches. -/
theorem searchRoots_searches (pick : BlockId → Nat → Nat) (roots blacklisted : List BlockId) (groups : RootGroups) :
    ∃ bl gs, roots.foldlM (searchRoot M payload pick) (blacklisted, groups) = some (bl, groups ++ gs) ∧
      gs.map Prod.fst = roots ∧ (∀ g ∈ gs, g.2.Nodup) ∧ Searches (Edge M) (payloadSet payload) {b | b ∈ blacklisted} roots
        (gs.map fun g => {b | b ∈ g.2}) {b | b ∈ bl} := by
  induction roots generalizing blacklisted groups with
  | nil =>
    exact ⟨blacklisted, [], by rw [List.append_nil]; rfl, rfl, fun _ hg => absurd hg List.not_mem_nil, .nil _⟩
  | cons root roots ih =>
    obtain ⟨s, hs, hdone⟩ := searchTree_done M payload (pick root) root blacklisted
    obtain ⟨bl, gs, hrun, hfst, hnd, hsearch⟩ := ih s.blacklisted (groups ++ [(root, s.group)])
    have hgroup := searchTree_group M payload (pick root) _ (List.nodup_singleton root) hs
    refine ⟨bl, (root, s.group) :: gs, ?_, by rw [List.map_cons, hfst],
      List.forall_mem_cons.mpr ⟨hgroup, hnd⟩, .cons hdone hsearch⟩
    have hstep : searchRoot M payload pick (blacklisted, groups) root =
        some (s.blacklisted, groups ++ [(root, s.group)]) := by
      rw [searchRoot]
      dsimp only
      rw [hs]
      rfl
    rw [List.foldlM_cons, hstep, Option.bind_eq_bind, Option.bind_some, hrun, List.append_assoc]
    rfl

end Refinement

section Groups

/- What the searches may visit: payload blocks but the header, the only latch and the
blocks of nested loops that an iterator block is the header of. -/
structure Allowed (M : Module) (LI : LoopInfo) (l : LoopId) (payload : List BlockId) (b : BlockId) : Prop where
  listed : b ∈ payload
  header : LI.headerOf l ≠ some b
  latch : LI.getLoopLatch M l ≠ some b
  inner : ∀ m h, LI.Inner l m → LI.headerOf m = some h → h ∉ payload → b ∉ LI.blocksOf m

/- A block of the loop outside the payload list branches to it. -/
def EnteredFromIterator (M : Module) (LI : LoopInfo) (l : LoopId) (payload : List BlockId) (b : BlockId) : Prop :=
  ∃ p ∈ M.predsOf b, p ∈ LI.blocksOf l ∧ p ∉ payload

variable {M : Module} {LI : LoopInfo} {l : LoopId} {payload : List BlockId}

theorem mem_iteratorBlocks {b : BlockId} : b ∈ iteratorBlocks LI l payload ↔ b ∈ LI.blocksOf l ∧ b ∉ payload := by
  rw [iteratorBlocks, List.mem_filter, decide_eq_true_eq]

/- The blocks blacklisted for a block are those of the nested loop it is the header of. -/
theorem mem_headedBlocks (hLI : LI.Natural M) (hl : l < LI.loops.length) {h b : BlockId} (hh : h ∈ LI.blocksOf l) :
    b ∈ headedBlocks LI l h ↔ ∃ m, LI.Inner l m ∧ LI.headerOf m = some h ∧ b ∈ LI.blocksOf m := by
  obtain ⟨k, hk, hlk⟩ := (hLI.mem_blocksOf l hl h).mp hh
  have hklt := hLI.bbMap_lt h k hk
  have hdepth : LI.loopDepth h = (LI.enclosing k).length := by rw [LoopInfo.loopDepth, LoopInfo.getLoopFor, hk]
  have hblocks : ((LI.getLoopFor h).map LI.blocksOf).getD [] = LI.blocksOf k := by rw [LoopInfo.getLoopFor, hk]; rfl
  rw [headedBlocks, hdepth, hblocks]
  have hinner : LI.Inner l k ↔ (LI.enclosing k).length > (LI.enclosing l).length := by
    constructor
    · exact LoopInfo.depth_lt hLI hklt
    · intro hlt
      refine ⟨fun he => ?_, hlk⟩
      rw [he] at hlt
      exact Nat.lt_irrefl _ hlt
  constructor
  · intro hb
    split at hb
    · next hcond =>
      rw [Bool.and_eq_true, decide_eq_true_eq, LoopInfo.isLoopHeader_iff] at hcond
      obtain ⟨⟨m, hm, hmh⟩, hd⟩ := hcond
      obtain rfl := Option.some.inj (hk.symm.trans hm)
      exact ⟨k, hinner.mpr hd, hmh, hb⟩
    · exact absurd hb List.not_mem_nil
  · rintro ⟨m, hin, hmh, hb⟩
    obtain rfl := Option.some.inj ((hLI.header m h hmh).symm.trans hk)
    rw [if_pos]
    · exact hb
    · rw [Bool.and_eq_true, decide_eq_true_eq, LoopInfo.isLoopHeader_iff]
      exact ⟨⟨m, hk, hmh⟩, hinner.mp hin⟩

theorem allowed_iff (hLI : LI.Natural M) (hl : l < LI.loops.length) {b : BlockId} :
    Allowed M LI l payload b ↔ b ∈ payload ∧ b ∉ blacklistedBlocks M LI l payload := by
  have hflat : b ∈ (iteratorBlocks LI l payload).flatMap (headedBlocks LI l) ↔
      ∃ m h, LI.Inner l m ∧ LI.headerOf m = some h ∧ h ∉ payload ∧ b ∈ LI.blocksOf m := by
    rw [List.mem_flatMap]
    constructor
    · rintro ⟨h, hh, hb⟩
      obtain ⟨hhl, hno⟩ := mem_iteratorBlocks.mp hh
      obtain ⟨m, hin, hmh, hb⟩ := (mem_headedBlocks hLI hl hhl).mp hb
      exact ⟨m, h, hin, hmh, hno, hb⟩
    · rintro ⟨m, h, hin, hmh, hno, hb⟩
      obtain ⟨hm, hhm⟩ := LoopInfo.header_mem hLI hmh
      have hhl := LoopInfo.blocksOf_sub hLI hm hin.2 hhm
      exact ⟨h, mem_iteratorBlocks.mpr ⟨hhl, hno⟩, (mem_headedBlocks hLI hl hhl).mpr ⟨m, hin, hmh, hb⟩⟩
  simp only [blacklistedBlocks, List.mem_append, Option.mem_toList, not_or, hflat]
  constructor
  · intro h
    refine ⟨h.listed, ⟨⟨⟨fun hi => (mem_iteratorBlocks.mp hi).2 h.listed, h.latch⟩, h.header⟩, ?_⟩⟩
    rintro ⟨m, k, hin, hk, hno, hb⟩
    exact h.inner m k hin hk hno hb
  · rintro ⟨hp, ⟨⟨-, hlatch⟩, hhead⟩, hinner⟩
    exact ⟨hp, hhead, hlatch, fun m k hin hk hno hb => hinner ⟨m, k, hin, hk, hno, hb⟩⟩

theorem mem_rootBlocks (hLI : LI.Natural M) (hl : l < LI.loops.length) {b : BlockId} :
    b ∈ rootBlocks M LI l payload ↔ Allowed M LI l payload b ∧ EnteredFromIterator M LI l payload b := by
  rw [rootBlocks, List.mem_filter, List.mem_dedup, decide_eq_true_eq, allowed_iff hLI hl, and_assoc]
  simp only [mem_iteratorBlocks, EnteredFromIterator]

theorem sortedRoots_nodup (addr : BlockId → Nat) (M : Module) (LI : LoopInfo) (l : LoopId) (payload : List BlockId) :
    ((rootBlocks M LI l payload).insertionSort fun x y => addr x ≤ addr y).Nodup := by
  rw [(List.perm_insertionSort _ _).nodup_iff]
  exact payload.nodup_dedup.filter _

theorem sortedRoots_pairwise (addr : BlockId → Nat) (M : Module) (LI : LoopInfo) (l : LoopId) (payload : List BlockId) :
    ((rootBlocks M LI l payload).insertionSort fun x y => addr x ≤ addr y).Pairwise fun x y => addr x ≤ addr y := by
  have : Std.Total fun x y => addr x ≤ addr y := ⟨fun x y => Nat.le_total (addr x) (addr y)⟩
  have : IsTrans BlockId fun x y => addr x ≤ addr y := ⟨fun _ _ _ => Nat.le_trans⟩
  exact List.pairwise_insertionSort (fun x y => addr x ≤ addr y) _

/- The call is a sequence of searches from the sorted roots. -/
structure TreeRun (M : Module) (LI : LoopInfo) (l : LoopId) (payload : List BlockId) (groups : RootGroups) : Prop where
  nodup : ∀ g ∈ groups, g.2.Nodup
  roots : ∀ r, r ∈ groups.map Prod.fst ↔ Allowed M LI l payload r ∧ EnteredFromIterator M LI l payload r
  searches : ∃ seen, Searches (Edge M) (payloadSet payload) {b | b ∈ blacklistedBlocks M LI l payload}
    (groups.map Prod.fst) (groups.map fun g => {b | b ∈ g.2}) seen

theorem allowed_set (hLI : LI.Natural M) (hl : l < LI.loops.length) :
    payloadSet payload \ {b | b ∈ blacklistedBlocks M LI l payload} = {c | Allowed M LI l payload c} := by
  ext b
  exact (allowed_iff hLI hl).symm

theorem selectPayloadTrees_run (addr : BlockId → Nat) (pick : BlockId → Nat → Nat) (hLI : LI.Natural M)
    (hl : l < LI.loops.length) (payload : List BlockId) :
    ∃ groups, selectPayloadTrees addr pick M LI l payload = some groups ∧ TreeRun M LI l payload groups ∧
      groups.map Prod.fst = (rootBlocks M LI l payload).insertionSort fun x y => addr x ≤ addr y := by
  have hperm := List.perm_insertionSort (fun x y => addr x ≤ addr y) (rootBlocks M LI l payload)
  obtain ⟨bl, gs, hrun, hfst, hnd, hsearch⟩ := searchRoots_searches M payload pick
    ((rootBlocks M LI l payload).insertionSort fun x y => addr x ≤ addr y) (blacklistedBlocks M LI l payload) []
  refine ⟨gs, by rw [selectPayloadTrees, hrun]; rfl, ⟨hnd, fun r => ?_, _, hfst ▸ hsearch⟩, hfst⟩
  rw [hfst]
  exact hperm.mem_iff.trans (mem_rootBlocks hLI hl)

theorem TreeRun.allowed {groups : RootGroups} (h : TreeRun M LI l payload groups) (hLI : LI.Natural M)
    (hl : l < LI.loops.length) : ∀ r ∈ groups.map Prod.fst,
      r ∈ payloadSet payload \ {b | b ∈ blacklistedBlocks M LI l payload} := by
  intro r hr
  rw [allowed_set hLI hl]
  exact ((h.roots r).mp hr).1

/- Every group grows from its root. -/
theorem TreeRun.grown {groups : RootGroups} (h : TreeRun M LI l payload groups) (hLI : LI.Natural M)
    (hl : l < LI.loops.length) {g : BlockId × List BlockId} (hg : g ∈ groups) : g.1 ∈ g.2 ∧
      ∀ b ∈ g.2, Allowed M LI l payload b ∧ Within (Edge M) {c | c ∈ g.2} g.1 b := by
  obtain ⟨seen, hsearch⟩ := h.searches
  obtain ⟨hgrown, -, -⟩ := hsearch.spec (U := ∅) (Set.union_empty _).symm
    (fun a ha => absurd ha (Set.notMem_empty a)) (h.allowed hLI hl)
  rw [List.forall₂_map_left_iff, List.forall₂_map_right_iff, List.forall₂_same] at hgrown
  have hgr := hgrown g hg
  refine ⟨hgr.root, fun b hb => ⟨?_, hgr.path b hb⟩⟩
  have hm := hgr.sub hb
  rw [allowed_set hLI hl] at hm
  exact hm

/- Some allowed block that an iterator block branches to leads to it through allowed blocks. -/
def PayloadReachable (M : Module) (LI : LoopInfo) (l : LoopId) (payload : List BlockId) (b : BlockId) : Prop :=
  ∃ r, Allowed M LI l payload r ∧ EnteredFromIterator M LI l payload r ∧
    Within (Edge M) {c | Allowed M LI l payload c} r b

theorem TreeRun.covers {groups : RootGroups} (h : TreeRun M LI l payload groups) (hLI : LI.Natural M)
    (hl : l < LI.loops.length) (b : BlockId) : (∃ g ∈ groups, b ∈ g.2) ↔ PayloadReachable M LI l payload b := by
  obtain ⟨seen, hsearch⟩ := h.searches
  have hcov := hsearch.covers (h.allowed hLI hl) b
  rw [allowed_set hLI hl] at hcov
  constructor
  · rintro ⟨g, hg, hb⟩
    obtain ⟨r, hr, hpath⟩ := hcov.mp ⟨_, List.mem_map_of_mem hg, hb⟩
    obtain ⟨h1, h2⟩ := (h.roots r).mp hr
    exact ⟨r, h1, h2, hpath⟩
  · rintro ⟨r, h1, h2, hpath⟩
    obtain ⟨s, hs, hb⟩ := hcov.mpr ⟨r, (h.roots r).mpr ⟨h1, h2⟩, hpath⟩
    obtain ⟨g, hg, rfl⟩ := List.mem_map.mp hs
    exact ⟨g, hg, hb⟩

/- Addresses that put `r` before everything else. -/
def addrBefore (r b : BlockId) : Nat := if b = r then 0 else b + 1

theorem addrBefore_lt {r b : BlockId} (hb : b ≠ r) : addrBefore r r < addrBefore r b := by
  rw [addrBefore, if_pos rfl, addrBefore, if_neg hb]
  exact Nat.succ_pos b

theorem addrBefore_injective (r : BlockId) : (addrBefore r).Injective := by
  intro x y h
  by_cases hx : x = r
  · by_cases hy : y = r
    · rw [hx, hy]
    · exact absurd (hx ▸ h) (Nat.ne_of_lt (addrBefore_lt hy))
  · by_cases hy : y = r
    · exact absurd (hy ▸ h).symm (Nat.ne_of_lt (addrBefore_lt hx))
    · rw [addrBefore, if_neg hx, addrBefore, if_neg hy] at h
      exact Nat.succ.inj h

theorem sortedRoots_first {addr : BlockId → Nat} {r : BlockId} (haddr : ∀ b, b ≠ r → addr r < addr b)
    (hr : r ∈ rootBlocks M LI l payload) :
    ∃ rs, (rootBlocks M LI l payload).insertionSort (fun x y => addr x ≤ addr y) = r :: rs := by
  have hperm := List.perm_insertionSort (fun x y => addr x ≤ addr y) (rootBlocks M LI l payload)
  have hsorted := sortedRoots_pairwise addr M LI l payload
  have hmem := hperm.mem_iff.mpr hr
  cases hrs : (rootBlocks M LI l payload).insertionSort (fun x y => addr x ≤ addr y) with
  | nil => exact absurd (hrs ▸ hmem) List.not_mem_nil
  | cons x rs =>
    rw [hrs] at hsorted hmem
    have hx : x = r := by
      rcases List.mem_cons.mp hmem with he | hrs
      · exact he.symm
      · have hle := (List.pairwise_cons.mp hsorted).1 r hrs
        by_contra hne
        exact Nat.lt_irrefl _ (Nat.lt_of_lt_of_le (haddr x hne) hle)
    exact ⟨rs, by rw [hx]⟩

/- The first search finds all that its root leads to, and the others find none of that
but their own roots. -/
theorem selectPayloadTrees_first {addr : BlockId → Nat} (pick : BlockId → Nat → Nat) (hLI : LI.Natural M)
    (hl : l < LI.loops.length) {r : BlockId} (haddr : ∀ b, b ≠ r → addr r < addr b)
    (hr : Allowed M LI l payload r) (hre : EnteredFromIterator M LI l payload r) :
    ∃ g groups, selectPayloadTrees addr pick M LI l payload = some ((r, g) :: groups) ∧
      TreeRun M LI l payload ((r, g) :: groups) ∧
      (∀ b, b ∈ g ↔ Within (Edge M) {c | Allowed M LI l payload c} r b) ∧
      (∀ x ∈ groups, x.1 ≠ r ∧ ∀ b ∈ x.2, b = x.1 ∨ b ∉ g) ∧ (groups.map Prod.fst).Nodup := by
  obtain ⟨groups, hrun, htree, hfst⟩ := selectPayloadTrees_run addr pick hLI hl payload
  obtain ⟨rs, hrs⟩ := sortedRoots_first haddr ((mem_rootBlocks hLI hl).mpr ⟨hr, hre⟩)
  have hnd := sortedRoots_nodup addr M LI l payload
  rw [hrs] at hfst hnd
  obtain ⟨hnotMem, hrsnd⟩ := List.nodup_cons.mp hnd
  cases groups with
  | nil => exact nomatch hfst
  | cons x groups =>
    obtain ⟨r', g⟩ := x
    obtain ⟨rfl, rfl⟩ := List.cons.inj hfst
    obtain ⟨seen, hsearch⟩ := htree.searches
    obtain ⟨hfirst, hrest⟩ := hsearch.first (htree.allowed hLI hl r' (List.mem_cons_self ..))
    rw [allowed_set hLI hl] at hfirst
    rw [List.forall₂_map_left_iff, List.forall₂_map_right_iff, List.forall₂_same] at hrest
    refine ⟨g, groups, hrun, htree, hfirst, fun x hx => ⟨fun he => ?_, hrest x hx⟩, hrsnd⟩
    exact hnotMem (he ▸ List.mem_map_of_mem hx)

/- For every order of the roots and of the work lists the search ends, every group is
reached from its root inside itself, and the groups cover what can be reached from a root. -/
theorem selectPayloadTrees_covers (addr : BlockId → Nat) (pick : BlockId → Nat → Nat) (hLI : LI.Natural M)
    (hl : l < LI.loops.length) (payload : List BlockId) :
    ∃ groups, selectPayloadTrees addr pick M LI l payload = some groups ∧
      (∀ g ∈ groups, g.1 ∈ g.2 ∧ ∀ b ∈ g.2, Allowed M LI l payload b ∧
        Within (Edge M) {c | c ∈ g.2} g.1 b) ∧
      ∀ b, (∃ g ∈ groups, b ∈ g.2) ↔ ∃ r, Allowed M LI l payload r ∧ EnteredFromIterator M LI l payload r ∧
        Within (Edge M) {c | Allowed M LI l payload c} r b := by
  obtain ⟨groups, hrun, htree, -⟩ := selectPayloadTrees_run addr pick hLI hl payload
  exact ⟨groups, hrun, fun g hg => htree.grown hLI hl hg, htree.covers hLI hl⟩

/- A loop with two ways through its body: 1 is the header, 5 the latch, 2 and 3 the payload. -/
def forkLoop : Module where
  funcs := [{ id := 9, params := [], isVarArg := false, blocks :=
    [⟨0, [Inst.uncondBr 10 1], false⟩,
     ⟨1, [⟨11, .br, .void, [.const (.int 1 0)], [], [2, 6]⟩], false⟩,
     ⟨2, [⟨12, .br, .void, [.const (.int 1 0)], [], [3, 5]⟩], false⟩,
     ⟨3, [Inst.uncondBr 13 5], false⟩,
     ⟨5, [Inst.uncondBr 15 1], false⟩,
     ⟨6, [⟨16, .ret, .void, [], [], []⟩], false⟩] }]
  nextId := 20
  valueName := fun _ => ""
  initUsesBlockAddress := fun _ => false

def forkLoops : LoopInfo where
  loops := [⟨1, [1, 2, 3, 5], none⟩]
  bbMap := fun b => [(1, 0), (2, 0), (3, 0), (5, 0)].lookup b

theorem forkLoops_natural : forkLoops.Natural forkLoop :=
  LoopInfo.natural_of_lookup (by decide) (by decide) (by decide) (by decide) (by decide) (by decide)

theorem selectPayloadTrees_covers_forkLoop :
    ∃ groups, selectPayloadTrees id (fun _ _ => 0) forkLoop forkLoops 0 [3, 2] = some groups ∧
      (∀ g ∈ groups, g.1 ∈ g.2 ∧ ∀ b ∈ g.2, Allowed forkLoop forkLoops 0 [3, 2] b ∧
        Within (Edge forkLoop) {c | c ∈ g.2} g.1 b) ∧
      ∀ b, (∃ g ∈ groups, b ∈ g.2) ↔ ∃ r, Allowed forkLoop forkLoops 0 [3, 2] r ∧
        EnteredFromIterator forkLoop forkLoops 0 [3, 2] r ∧
        Within (Edge forkLoop) {c | Allowed forkLoop forkLoops 0 [3, 2] c} r b :=
  selectPayloadTrees_covers id (fun _ _ => 0) forkLoops_natural (by decide) [3, 2]

example : selectPayloadTrees id (fun _ _ => 0) forkLoop forkLoops 0 [3, 2] = some [(2, [3, 2])] := by decide

end Groups

end Atrox
