import Atrox.Analysis.Selectors

/-!
# Overlapping payload trees

Every root enters its own group and its own work list, whether an earlier search has
found it or not. So a group may hold the root of a later one, and what is found behind
a root depends on the order of block addresses.
-/

namespace Atrox
open IR Lib

/- The blocks that searches start from. -/
structure TreeRoot (M : Module) (LI : LoopInfo) (l : LoopId) (payload : List BlockId) (r : BlockId) : Prop where
  allowed : Allowed M LI l payload r
  entered : EnteredFromIterator M LI l payload r

/- A root leads to the block through blocks that the searches may visit. -/
def LeadsTo (M : Module) (LI : LoopInfo) (l : LoopId) (payload : List BlockId) : BlockId → BlockId → Prop :=
  Within (Edge M) {c | Allowed M LI l payload c}

/- Groups of different roots have no block in common. -/
def GroupsDisjoint (groups : RootGroups) : Prop :=
  ∀ g ∈ groups, ∀ h ∈ groups, g.1 ≠ h.1 → ∀ b ∈ g.2, b ∉ h.2

/- The group of each root is the same. -/
structure SameGroups (gs hs : RootGroups) : Prop where
  roots : ∀ r, r ∈ gs.map Prod.fst ↔ r ∈ hs.map Prod.fst
  blocks : ∀ g ∈ gs, ∀ h ∈ hs, g.1 = h.1 → ∀ b, b ∈ g.2 ↔ b ∈ h.2

/- One tree weighs more than all others. -/
def StrictlyHeaviest (weights : BlockId → Nat) (groups : RootGroups) (m : BlockId × List BlockId) : Prop :=
  m ∈ groups ∧ ∀ t ∈ groups, t ≠ m → treeWeight weights t < treeWeight weights m

/- Two runs with blocks at other addresses give the same groups, and the weighted selector
the same blocks where one tree is strictly the heaviest. -/
structure AddressIndependent (M : Module) (LI : LoopInfo) (l : LoopId) (payload : List BlockId) : Prop where
  groups : ∀ addr₁ addr₂ : BlockId → Nat, addr₁.Injective → addr₂.Injective → ∀ pick₁ pick₂,
    ∃ gs hs, selectPayloadTrees addr₁ pick₁ M LI l payload = some gs ∧
      selectPayloadTrees addr₂ pick₂ M LI l payload = some hs ∧ SameGroups gs hs
  selected : ∀ addr₁ addr₂ : BlockId → Nat, addr₁.Injective → addr₂.Injective → ∀ pick₁ pick₂ weights gs m,
    selectPayloadTrees addr₁ pick₁ M LI l payload = some gs → StrictlyHeaviest weights gs m →
    ∃ bs cs, heaviestTree addr₁ pick₁ weights M LI l payload = some bs ∧
      heaviestTree addr₂ pick₂ weights M LI l payload = some cs ∧ ∀ b, b ∈ bs ↔ b ∈ cs

section Overlap
variable {M : Module} {LI : LoopInfo} {l : LoopId} {payload : List BlockId}

theorem TreeRun.treeRoot {groups : RootGroups} (h : TreeRun M LI l payload groups) {g : BlockId × List BlockId}
    (hg : g ∈ groups) : TreeRoot M LI l payload g.1 := by
  obtain ⟨h1, h2⟩ := (h.roots g.1).mp (List.mem_map_of_mem hg)
  exact ⟨h1, h2⟩

theorem TreeRun.leadsTo {groups : RootGroups} (h : TreeRun M LI l payload groups) (hLI : LI.Natural M)
    (hl : l < LI.loops.length) {g : BlockId × List BlockId} (hg : g ∈ groups) {b : BlockId} (hb : b ∈ g.2) :
    LeadsTo M LI l payload g.1 b := by
  obtain ⟨-, hgrown⟩ := h.grown hLI hl hg
  exact (hgrown b hb).2.mono fun c hc => (hgrown c hc).1

/- The groups as sets, with their roots. -/
def groupSets (groups : RootGroups) : List (BlockId × Set BlockId) := groups.map fun g => (g.1, {b | b ∈ g.2})

theorem TreeRun.sets {groups : RootGroups} (h : TreeRun M LI l payload groups) :
    ∃ seen, Searches (Edge M) (payloadSet payload) {b | b ∈ blacklistedBlocks M LI l payload}
      ((groupSets groups).map Prod.fst) ((groupSets groups).map Prod.snd) seen := by
  obtain ⟨seen, hsearch⟩ := h.searches
  refine ⟨seen, ?_⟩
  rw [groupSets, List.map_map, List.map_map]
  exact hsearch

/- What two groups share is the root of the later one. -/
theorem TreeRun.shared {groups : RootGroups} (h : TreeRun M LI l payload groups) :
    groups.Pairwise fun g k => ∀ b ∈ g.2, b ∈ k.2 → b = k.1 := by
  obtain ⟨seen, hsearch⟩ := h.sets
  exact List.pairwise_map.mp hsearch.pairwise

theorem groupSets_split (pre post : RootGroups) (g : BlockId × List BlockId) :
    groupSets (pre ++ g :: post) = groupSets pre ++ (g.1, {b | b ∈ g.2}) :: groupSets post := by
  rw [groupSets, List.map_append, List.map_cons]
  rfl

/- What a root leads to is in its group or in an earlier one. -/
theorem TreeRun.earlier (hLI : LI.Natural M) (hl : l < LI.loops.length) {pre post : RootGroups}
    {g : BlockId × List BlockId} (h : TreeRun M LI l payload (pre ++ g :: post)) {b : BlockId}
    (hb : LeadsTo M LI l payload g.1 b) : ∃ k ∈ pre ++ [g], b ∈ k.2 := by
  obtain ⟨seen, hsearch⟩ := h.sets
  have hroots : ∀ y ∈ groupSets (pre ++ g :: post),
      y.1 ∈ payloadSet payload \ {b | b ∈ blacklistedBlocks M LI l payload} := by
    intro y hy
    obtain ⟨k, hk, rfl⟩ := List.mem_map.mp hy
    exact h.allowed hLI hl k.1 (List.mem_map_of_mem hk)
  rw [groupSets_split] at hsearch hroots
  rw [LeadsTo, ← allowed_set hLI hl] at hb
  obtain ⟨y, hy, hby⟩ := hsearch.earlier hroots hb
  rcases List.mem_append.mp hy with hy | hy
  · obtain ⟨k, hk, rfl⟩ := List.mem_map.mp hy
    exact ⟨k, List.mem_append_left [g] hk, hby⟩
  · obtain rfl := List.mem_singleton.mp hy
    exact ⟨g, List.mem_append_right pre (List.mem_singleton_self g), hby⟩

theorem groups_nodup {addr : BlockId → Nat} {groups : RootGroups} (hfst : groups.map Prod.fst =
    (rootBlocks M LI l payload).insertionSort fun x y => addr x ≤ addr y) : (groups.map Prod.fst).Nodup := by
  rw [hfst]
  exact sortedRoots_nodup addr M LI l payload

/- A group is known by its root. -/
theorem group_unique {groups : RootGroups} (hnd : (groups.map Prod.fst).Nodup) {g k : BlockId × List BlockId}
    (hg : g ∈ groups) (hk : k ∈ groups) (heq : g.1 = k.1) : g = k := List.inj_on_of_nodup_map hnd hg hk heq

/- Groups stand in the order of the addresses of their roots. -/
theorem groups_pairwise {addr : BlockId → Nat} {groups : RootGroups} (hfst : groups.map Prod.fst =
    (rootBlocks M LI l payload).insertionSort fun x y => addr x ≤ addr y) :
    groups.Pairwise fun g k => addr g.1 ≤ addr k.1 := by
  have h := sortedRoots_pairwise addr M LI l payload
  rw [← hfst, List.pairwise_map] at h
  exact h

/- Groups are disjoint exactly if no root leads to another one at a higher address. -/
theorem selectPayloadTrees_disjoint_iff {addr : BlockId → Nat} (haddr : addr.Injective)
    (pick : BlockId → Nat → Nat) (hLI : LI.Natural M) (hl : l < LI.loops.length) (payload : List BlockId) :
    (∃ groups, selectPayloadTrees addr pick M LI l payload = some groups ∧ GroupsDisjoint groups) ↔
      ∀ r r', TreeRoot M LI l payload r → TreeRoot M LI l payload r' → addr r < addr r' →
        ¬ LeadsTo M LI l payload r r' := by
  obtain ⟨groups, hrun, htree, hfst⟩ := selectPayloadTrees_run addr pick hLI hl payload
  have hnd := groups_nodup hfst
  have hsorted := groups_pairwise hfst
  constructor
  · rintro ⟨groups', hrun', hdis⟩ r r' hr hr' hlt hlead
    obtain rfl := Option.some.inj (hrun'.symm.trans hrun)
    obtain ⟨g, hg, rfl⟩ := List.mem_map.mp ((htree.roots r).mpr ⟨hr.allowed, hr.entered⟩)
    obtain ⟨k, hk, rfl⟩ := List.mem_map.mp ((htree.roots r').mpr ⟨hr'.allowed, hr'.entered⟩)
    obtain ⟨pre, post, rfl⟩ := List.append_of_mem hg
    obtain ⟨e, he, hek⟩ := htree.earlier hLI hl hlead
    -- `e` comes no later than `g`, so it is not the group of `k`
    have hele : addr e.1 ≤ addr g.1 := by
      rcases List.mem_append.mp he with he | he
      · exact (List.pairwise_append.mp hsorted).2.2 e he g (List.mem_cons_self ..)
      · exact (List.mem_singleton.mp he) ▸ Nat.le_refl _
    have hne : e.1 ≠ k.1 := fun h => by
      rw [h] at hele
      omega
    have hemem : e ∈ pre ++ g :: post := by
      rw [List.append_cons]
      exact List.mem_append_left post he
    exact hdis e hemem k hk hne k.1 hek (htree.grown hLI hl hk).1
  · intro h
    refine ⟨groups, hrun, ?_⟩
    have hpair : groups.Pairwise fun g k => g.1 ≠ k.1 → ∀ b, ¬ (b ∈ g.2 ∧ b ∈ k.2) := by
      refine List.Pairwise.imp_of_mem ?_ (htree.shared.and hsorted)
      rintro g k hg hk ⟨hshared, hle⟩ hne b ⟨hbg, hbk⟩
      have hlt : addr g.1 < addr k.1 := Nat.lt_of_le_of_ne hle fun he => hne (haddr he)
      have hb := hshared b hbg hbk
      exact h g.1 k.1 (htree.treeRoot hg) (htree.treeRoot hk) hlt (hb ▸ htree.leadsTo hLI hl hg hbg)
    have hsymm : Std.Symm fun g k : BlockId × List BlockId => g.1 ≠ k.1 → ∀ b, ¬ (b ∈ g.2 ∧ b ∈ k.2) :=
      ⟨fun g k hgk hne b hb => hgk hne.symm b hb.symm⟩
    intro g hg k hk hne b hbg hbk
    exact hpair.forall hg hk (fun he => hne (congrArg Prod.fst he)) hne b ⟨hbg, hbk⟩

def addOne (i : InstId) : Inst := ⟨i, .add, .int 32, [.const (.int 32 1), .const (.int 32 1)], [], []⟩

/- A loop whose header 1 branches to 2 and 3, where 2 leads on to 3: `if (c) { 2 } 3`. -/
def overlapLoop : Module where
  funcs := [{ id := 9, params := [], isVarArg := false, blocks :=
    [⟨0, [Inst.uncondBr 10 1], false⟩,
     ⟨1, [⟨11, .br, .void, [.const (.int 1 0)], [], [2, 3]⟩], false⟩,
     ⟨2, [addOne 17, Inst.uncondBr 12 3], false⟩,
     ⟨3, [addOne 18, addOne 19, Inst.uncondBr 13 5], false⟩,
     ⟨5, [⟨15, .br, .void, [.const (.int 1 0)], [], [1, 6]⟩], false⟩,
     ⟨6, [⟨16, .ret, .void, [], [], []⟩], false⟩] }]
  nextId := 20
  valueName := fun _ => ""
  initUsesBlockAddress := fun _ => false

def overlapLoops : LoopInfo where
  loops := [⟨1, [1, 2, 3, 5], none⟩]
  bbMap := fun b => [(1, 0), (2, 0), (3, 0), (5, 0)].lookup b

theorem overlapLoops_natural : overlapLoops.Natural overlapLoop :=
  LoopInfo.natural_of_lookup (by decide) (by decide) (by decide) (by decide) (by decide) (by decide)

/- Block 3 is in both groups: its own search starts from it all the same. -/
theorem selectPayloadTrees_overlapLoop_overlap :
    selectPayloadTrees id (fun _ _ => 0) overlapLoop overlapLoops 0 [2, 3] = some [(2, [3, 2]), (3, [3])] ∧
      ¬ GroupsDisjoint [(2, [3, 2]), (3, [3])] := by
  refine ⟨by decide, fun h => ?_⟩
  exact h (2, [3, 2]) (by decide) (3, [3]) (by decide) (by decide) 3 (by decide) (by decide)

theorem selectPayloadTrees_disjoint_overlapLoop :
    (∃ groups, selectPayloadTrees id (fun _ _ => 0) overlapLoop overlapLoops 0 [2] = some groups ∧ GroupsDisjoint groups) ↔
      ∀ r r', TreeRoot overlapLoop overlapLoops 0 [2] r → TreeRoot overlapLoop overlapLoops 0 [2] r' → id r < id r' →
        ¬ LeadsTo overlapLoop overlapLoops 0 [2] r r' :=
  selectPayloadTrees_disjoint_iff Function.injective_id (fun _ _ => 0) overlapLoops_natural (by decide) [2]

end Overlap

section Addresses
variable {M : Module} {LI : LoopInfo} {l : LoopId} {payload : List BlockId}

/- No block is behind two different roots. -/
def RootsApart (M : Module) (LI : LoopInfo) (l : LoopId) (payload : List BlockId) : Prop :=
  ∀ r r', TreeRoot M LI l payload r → TreeRoot M LI l payload r' → r ≠ r' →
    ∀ b, LeadsTo M LI l payload r b → ¬ LeadsTo M LI l payload r' b

/- Then every group is all that its root leads to. -/
theorem TreeRun.mem_group {groups : RootGroups} (h : TreeRun M LI l payload groups) (hLI : LI.Natural M)
    (hl : l < LI.loops.length) (hnd : (groups.map Prod.fst).Nodup) (hapart : RootsApart M LI l payload)
    {g : BlockId × List BlockId} (hg : g ∈ groups) (b : BlockId) : b ∈ g.2 ↔ LeadsTo M LI l payload g.1 b := by
  constructor
  · exact h.leadsTo hLI hl hg
  · intro hb
    have hroot := h.treeRoot hg
    obtain ⟨k, hk, hbk⟩ := (h.covers hLI hl b).mpr ⟨g.1, hroot.allowed, hroot.entered, hb⟩
    by_cases heq : g.1 = k.1
    · rw [group_unique hnd hg hk heq]
      exact hbk
    · exact absurd (h.leadsTo hLI hl hk hbk) (hapart g.1 k.1 hroot (h.treeRoot hk) heq b hb)

theorem TreeRun.same {gs hs : RootGroups} (hgs : TreeRun M LI l payload gs) (hhs : TreeRun M LI l payload hs)
    (hLI : LI.Natural M) (hl : l < LI.loops.length) (hgnd : (gs.map Prod.fst).Nodup) (hhnd : (hs.map Prod.fst).Nodup)
    (hapart : RootsApart M LI l payload) : SameGroups gs hs where
  roots := fun r => (hgs.roots r).trans (hhs.roots r).symm
  blocks := fun g hg h hh heq b => by
    rw [hgs.mem_group hLI hl hgnd hapart hg, hhs.mem_group hLI hl hhnd hapart hh, heq]

/- A weight is a sum, so it does not depend on the order of the blocks. -/
theorem treeWeight_congr (weights : BlockId → Nat) {g h : BlockId × List BlockId} (hg : g.2.Nodup) (hh : h.2.Nodup)
    (heq : ∀ b, b ∈ g.2 ↔ b ∈ h.2) : treeWeight weights g = treeWeight weights h := by
  have hperm : g.2.Perm h.2 := (List.perm_ext_iff_of_nodup hg hh).mpr heq
  rw [treeWeight, treeWeight, unsignedSum_eq, unsignedSum_eq, (hperm.map weights).sum_eq]

/- `std::max_element` finds the strictly heaviest tree. -/
theorem maxElement_strict {weights : BlockId → Nat} {groups : RootGroups} {m : BlockId × List BlockId}
    (hm : StrictlyHeaviest weights groups m) : maxElement weights groups = some m := by
  obtain ⟨x, hx⟩ := maxElement_some weights (List.ne_nil_of_mem hm.1)
  obtain ⟨hmem, hle⟩ := maxElement_le hx
  by_cases heq : x = m
  · exact heq ▸ hx
  · have hlt := hm.2 x hmem heq
    have hge := hle m hm.1
    omega

theorem SameGroups.heaviest {weights : BlockId → Nat} {gs hs : RootGroups} (h : SameGroups gs hs)
    (hgnd : ∀ g ∈ gs, g.2.Nodup) (hhnd : ∀ k ∈ hs, k.2.Nodup) (hroots : (hs.map Prod.fst).Nodup)
    {m : BlockId × List BlockId} (hm : StrictlyHeaviest weights gs m) :
    ∃ k, StrictlyHeaviest weights hs k ∧ ∀ b, b ∈ m.2 ↔ b ∈ k.2 := by
  have hweight : ∀ g ∈ gs, ∀ k ∈ hs, g.1 = k.1 → treeWeight weights g = treeWeight weights k := fun g hg k hk heq =>
    treeWeight_congr weights (hgnd g hg) (hhnd k hk) (h.blocks g hg k hk heq)
  obtain ⟨k, hk, hkm⟩ := List.mem_map.mp ((h.roots m.1).mp (List.mem_map_of_mem hm.1))
  refine ⟨k, ⟨hk, fun t ht hne => ?_⟩, h.blocks m hm.1 k hk hkm.symm⟩
  obtain ⟨g, hg, hgt⟩ := List.mem_map.mp ((h.roots t.1).mpr (List.mem_map_of_mem ht))
  have hgm : g ≠ m := fun he => hne (group_unique hroots ht hk (by rw [← hgt, he, hkm]))
  rw [← hweight g hg t ht hgt, ← hweight m hm.1 k hk hkm.symm]
  exact hm.2 g hg hgm

/- With the lowest address a root has all that it leads to, and other groups have none of
it but their roots. -/
theorem selectPayloadTrees_before (hLI : LI.Natural M) (hl : l < LI.loops.length) {r r' : BlockId}
    (hr : TreeRoot M LI l payload r) (hr' : TreeRoot M LI l payload r') (hne : r ≠ r') {b : BlockId}
    (hb : LeadsTo M LI l payload r b) :
    ∃ groups g g', selectPayloadTrees (addrBefore r) (fun _ _ => 0) M LI l payload = some groups ∧
      (r, g) ∈ groups ∧ (r', g') ∈ groups ∧ b ∈ g ∧ (b ∈ g' → b = r') := by
  obtain ⟨g, rest, hrun, htree, hg, hrest, -⟩ := selectPayloadTrees_first (fun _ _ => 0) hLI hl
    (fun _ => addrBefore_lt) hr.allowed hr.entered
  obtain ⟨k, hk, hkr⟩ := List.mem_map.mp ((htree.roots r').mpr ⟨hr'.allowed, hr'.entered⟩)
  have hbg := (hg b).mpr hb
  rcases List.mem_cons.mp hk with rfl | hk
  · exact absurd hkr hne
  · refine ⟨(r, g) :: rest, g, k.2, hrun, List.mem_cons_self .., ?_, hbg, fun hbk => ?_⟩
    · rw [← hkr]
      exact List.mem_cons_of_mem _ hk
    · rcases (hrest k hk).2 b hbk with he | hno
      · exact he.trans hkr
      · exact absurd hbg hno

/- The groups do not depend on addresses exactly if no block is behind two roots. -/
theorem selectPayloadTrees_independent_iff (hLI : LI.Natural M) (hl : l < LI.loops.length) (payload : List BlockId) :
    AddressIndependent M LI l payload ↔ RootsApart M LI l payload := by
  constructor
  · intro h r r' hr hr' hne b hb hb'
    obtain ⟨gs, g, g', hrun, hg, hg', hbg, hlast⟩ := selectPayloadTrees_before hLI hl hr hr' hne hb
    obtain ⟨ks, k', k, hrun', hk', hk, hbk', hlast'⟩ := selectPayloadTrees_before hLI hl hr' hr hne.symm hb'
    obtain ⟨gs₁, ks₁, h₁, h₂, hsame⟩ := h.groups _ _ (addrBefore_injective r) (addrBefore_injective r')
      (fun _ _ => 0) (fun _ _ => 0)
    obtain rfl := Option.some.inj (h₁.symm.trans hrun)
    obtain rfl := Option.some.inj (h₂.symm.trans hrun')
    -- each root has the block in its group only when it comes first
    have hbr : b = r := hlast' ((hsame.blocks _ hg _ hk rfl b).mp hbg)
    have hbr' : b = r' := hlast ((hsame.blocks _ hg' _ hk' rfl b).mpr hbk')
    exact hne (hbr.symm.trans hbr')
  · intro hapart
    have hrun := fun addr pick => selectPayloadTrees_run addr pick hLI hl payload
    constructor
    · intro addr₁ addr₂ _ _ pick₁ pick₂
      obtain ⟨gs, hgs, hgt, hgf⟩ := hrun addr₁ pick₁
      obtain ⟨hs, hhs, hht, hhf⟩ := hrun addr₂ pick₂
      exact ⟨gs, hs, hgs, hhs, hgt.same hht hLI hl (groups_nodup hgf) (groups_nodup hhf) hapart⟩
    · intro addr₁ addr₂ _ _ pick₁ pick₂ weights gs m hgs hm
      obtain ⟨gs', hgs', hgt, hgf⟩ := hrun addr₁ pick₁
      obtain ⟨hs, hhs, hht, hhf⟩ := hrun addr₂ pick₂
      obtain rfl := Option.some.inj (hgs'.symm.trans hgs)
      have hsame := hgt.same hht hLI hl (groups_nodup hgf) (groups_nodup hhf) hapart
      obtain ⟨k, hk, hmk⟩ := hsame.heaviest hgt.nodup hht.nodup (groups_nodup hhf) hm
      refine ⟨m.2, k.2, ?_, ?_, hmk⟩
      · rw [heaviestTree, hgs, Option.bind_eq_bind, Option.bind_some, maxElement_strict hm]
        rfl
      · rw [heaviestTree, hhs, Option.bind_eq_bind, Option.bind_some, maxElement_strict hk]
        rfl

/- Block 3 is in the tree of 2 only if 2 has the lower address. The heavier tree is 2 and 3
in one run and 3 alone in the other. -/
theorem selectPayloadTrees_overlapLoop_depends : ¬ AddressIndependent overlapLoop overlapLoops 0 [2, 3] ∧
    getPayloadOnlyBlocks overlapLoops 0 (fun b => b = 2 || b = 3) = [2, 3] ∧
    weightedSelector id (fun _ _ => 0) overlapLoop overlapLoops 0 (some fun b => b = 2 || b = 3) = some [3, 2] ∧
    weightedSelector (addrBefore 3) (fun _ _ => 0) overlapLoop overlapLoops 0 (some fun b => b = 2 || b = 3) = some [3] := by
  refine ⟨fun h => ?_, by decide, by decide, by decide⟩
  obtain ⟨gs, hs, hgs, hhs, hsame⟩ := h.groups id (addrBefore 3) Function.injective_id (addrBefore_injective 3)
    (fun _ _ => 0) (fun _ _ => 0)
  have h₁ : selectPayloadTrees id (fun _ _ => 0) overlapLoop overlapLoops 0 [2, 3] =
      some [(2, [3, 2]), (3, [3])] := by decide
  have h₂ : selectPayloadTrees (addrBefore 3) (fun _ _ => 0) overlapLoop overlapLoops 0 [2, 3] =
      some [(3, [3]), (2, [2])] := by decide
  obtain rfl := Option.some.inj (hgs.symm.trans h₁)
  obtain rfl := Option.some.inj (hhs.symm.trans h₂)
  have h3 := (hsame.blocks (2, [3, 2]) (by decide) (2, [2]) (by decide) rfl 3).mp (by decide)
  exact absurd h3 (by decide)

theorem selectPayloadTrees_independent_overlapLoop :
    AddressIndependent overlapLoop overlapLoops 0 [2] ↔ RootsApart overlapLoop overlapLoops 0 [2] :=
  selectPayloadTrees_independent_iff overlapLoops_natural (by decide) [2]

end Addresses

end Atrox
