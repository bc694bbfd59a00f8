import Atrox.Transforms.BlockSeparator

/-!
# The separation pass over a loop nest (BlockSeparatorPass.cpp)

`BlockSeparatorPass::perform` runs the separator on every loop in preorder. Blocks
cut for one loop belong to others; their pieces stay homogeneous there.
-/

namespace Atrox
open IR

/- One round of the loop over the loops: fresh maps, and a split when a point is found. -/
def separateLoop (addr : BlockId → Nat) (infos : LoopId → Option IteratorInfo)
    (st : Bool × Module × LoopInfo) (l : LoopId) : Option (Bool × Module × LoopInfo) :=
  match infos l with
  | none => some st
  | some info => (findPartitionPoints st.2.1 (st.2.2.blocksOf l) info ∅ []).map fun found =>
    if found.2.isEmpty then st else
      let s := splitAtPartitionPoints addr found.2 ⟨st.2.1, st.2.2, found.1⟩
      (true, s.M, s.LI)

/-- `BlockSeparatorPass::perform` on a function of the given name. The iterator
info of each loop is built before the first split. -/
def perform (addr : BlockId → Nat) (infos : LoopId → Option IteratorInfo) (isDeclaration : Bool)
    (whiteList : Option (List String)) (name : String) (M : Module) (LI : LoopInfo) :
    Option (Bool × Module × LoopInfo) :=
  if isDeclaration || whiteList.any fun ws => name ∉ ws then some (false, M, LI)
  else (List.range LI.loops.length).foldlM (separateLoop addr infos) (false, M, LI)

/- Well-formedness that the splits need and keep. -/
structure SplitInv (M : Module) (LI : LoopInfo) : Prop where
  ids : M.Ids
  loops : LI.WF
  blocks_lt : ∀ l < LI.loops.length, ∀ b ∈ LI.blocksOf l, b < M.nextId
  noEHPad : ∀ b ∈ M.blocks, ∀ i ∈ b.insts, i.op.isEHPad = false
  phisFirst : ∀ b ∈ M.blocks, PhisFirst b.insts

/-- Every block of the loop separates at its pending points. -/
def LoopSeparates (info : IteratorInfo) (l : LoopId) (pend : BlockId → List InstId)
    (M : Module) (LI : LoopInfo) : Prop :=
  ∀ b ∈ M.blocks, b.id ∈ LI.blocksOf l → Separates info (pend b.id) b.insts

theorem noEHPad_core {is js : List Inst} (h : is.map Inst.core = js.map Inst.core)
    (hp : ∀ i ∈ is, i.op.isEHPad = false) : ∀ j ∈ js, j.op.isEHPad = false := by
  intro j hj
  obtain ⟨i, hi, he⟩ := mem_of_core h hj
  rw [← op_of_core he, hp i hi]

section Split
variable {M : Module} {LI : LoopInfo}

theorem splitBlock_splitInv (h : SplitInv M LI) {b : Block} (hb : b ∈ M.blocks) (pt : InstId) :
    SplitInv (M.splitBlock b.id pt).1 (LI.splitUpdate b.id M.nextId) := by
  have hfresh : ∀ l < LI.loops.length, M.nextId ∉ LI.blocksOf l := fun l hl hm =>
    Nat.lt_irrefl _ (h.blocks_lt l hl _ hm)
  constructor
  · exact splitBlock_ids h.ids b.id pt
  · exact LoopInfo.splitUpdate_wf h.loops b.id M.nextId hfresh
  · intro l hl c hc
    rw [LoopInfo.splitUpdate_length] at hl
    rw [LoopInfo.splitUpdate_blocksOf h.loops b.id M.nextId hl] at hc
    rw [splitBlock_nextId]
    rcases hc with hc | ⟨rfl, -⟩
    · exact Nat.lt_succ_of_lt (h.blocks_lt l hl c hc)
    · exact Nat.lt_succ_self _
  · intro c hc
    rcases splitBlock_cases h.ids hb pt hc with ⟨b₀, hb₀, -, -, he⟩ | ⟨-, he⟩ | ⟨-, he⟩
    · exact noEHPad_core he.symm (h.noEHPad b₀ hb₀)
    · refine noEHPad_core he.symm fun i hi => ?_
      rcases List.mem_append.mp hi with hi | hi
      · exact h.noEHPad b hb i (List.mem_of_mem_take hi)
      · rw [List.mem_singleton.mp hi]
        rfl
    · exact noEHPad_core he.symm fun i hi => h.noEHPad b hb i (List.mem_of_mem_drop hi)
  · exact splitBlock_phisFirst h.ids hb pt h.phisFirst

/-- A split keeps the homogeneity of any loop, wherever it cuts. -/
theorem splitBlock_homogeneous (h : SplitInv M LI) {b : Block} (hb : b ∈ M.blocks) (pt : InstId)
    {info : IteratorInfo} {l : LoopId} (hl : l < LI.loops.length)
    (hom : LoopSeparates info l (fun _ => []) M LI) :
    LoopSeparates info l (fun _ => []) (M.splitBlock b.id pt).1
      (LI.splitUpdate b.id M.nextId) := by
  intro c hc hcl
  rw [LoopInfo.splitUpdate_blocksOf h.loops b.id M.nextId hl] at hcl
  have hold : M.nextId ∉ LI.blocksOf l := fun hm => Nat.lt_irrefl _ (h.blocks_lt l hl _ hm)
  rcases splitBlock_cases h.ids hb pt hc with ⟨b₀, hb₀, -, hid, he⟩ | ⟨hid, he⟩ | ⟨hid, he⟩
  · have hne : c.id ≠ M.nextId := hid ▸ Nat.ne_of_lt (h.ids.blocks_lt b₀ hb₀)
    have hmem : b₀.id ∈ LI.blocksOf l := by
      rcases hcl with hm | ⟨hm, -⟩
      · exact hid ▸ hm
      · exact absurd hm hne
    exact separates_core info he.symm (hom b₀ hb₀ hmem)
  · have hne : c.id ≠ M.nextId := hid ▸ Nat.ne_of_lt (h.ids.blocks_lt b hb)
    have hmem : b.id ∈ LI.blocksOf l := by
      rcases hcl with hm | ⟨hm, -⟩
      · exact hid ▸ hm
      · exact absurd hm hne
    refine separates_core info he.symm (homogeneous_piece info (hom b hb hmem) fun j hj => ?_)
    rcases List.mem_append.mp hj with hj | hj
    · exact .inl (List.mem_of_mem_take hj)
    · exact .inr (List.mem_singleton.mp hj ▸ rfl)
  · have hmem : b.id ∈ LI.blocksOf l := by
      rcases hcl with hm | ⟨-, hm⟩
      · exact absurd (hid ▸ hm) hold
      · exact hm
    exact separates_core info he.symm (homogeneous_piece info (hom b hb hmem) fun j hj =>
      .inl (List.mem_of_mem_drop hj))

/-- A split at the first pending point of a block uses that point up. -/
theorem splitBlock_pending (h : SplitInv M LI) {b : Block} (hb : b ∈ M.blocks)
    {info : IteratorInfo} {l : LoopId} (hl : l < LI.loops.length) (hbl : b.id ∈ LI.blocksOf l)
    {pend : BlockId → List InstId} {p : InstId} {ps : List InstId} (hp : pend b.id = p :: ps)
    (hfresh : pend M.nextId = []) (hsep : LoopSeparates info l pend M LI) :
    LoopSeparates info l (Function.update pend b.id ps) (M.splitBlock b.id p).1
      (LI.splitUpdate b.id M.nextId) := by
  have hbsep := hsep b hb hbl
  rw [hp] at hbsep
  obtain ⟨xs, i, ys, hins, rfl, hphi, hom, hrest⟩ := hbsep
  have hk : b.splitIndex i.id = xs.length :=
    splitIndex_eq hins (block_insts_nodup h.ids hb) hphi (h.noEHPad b hb i (by simp [hins]))
  have hbne : b.id ≠ M.nextId := Nat.ne_of_lt (h.ids.blocks_lt b hb)
  intro c hc hcl
  rw [LoopInfo.splitUpdate_blocksOf h.loops b.id M.nextId hl] at hcl
  rcases splitBlock_cases h.ids hb i.id hc with ⟨b₀, hb₀, hne, hid, he⟩ | ⟨hid, he⟩ | ⟨hid, he⟩
  · have hmem : b₀.id ∈ LI.blocksOf l := by
      rcases hcl with hm | ⟨hm, -⟩
      · exact hid ▸ hm
      · exact absurd (hid ▸ hm) (Nat.ne_of_lt (h.ids.blocks_lt b₀ hb₀))
    rw [hid, Function.update_of_ne hne]
    exact separates_core info he.symm (hsep b₀ hb₀ hmem)
  · rw [hid, Function.update_self]
    refine separates_core info he.symm ?_
    rw [hk, hins, List.take_left]
    exact hrest _ rfl
  · rw [hid, Function.update_of_ne hbne.symm, hfresh]
    refine separates_core info he.symm ?_
    rw [hk, hins, List.drop_left]
    exact hom

end Split

/- What every sequence of splits keeps: loops and blocks only grow. -/
structure Grows (M : Module) (LI : LoopInfo) (M' : Module) (LI' : LoopInfo) : Prop where
  length : LI'.loops.length = LI.loops.length
  nextId : M.nextId ≤ M'.nextId
  blocks : ∀ b ∈ M.blocks, ∃ c ∈ M'.blocks, c.id = b.id
  blocksOf : ∀ l < LI.loops.length, ∀ b ∈ LI.blocksOf l, b ∈ LI'.blocksOf l
  separated : ∀ info, ∀ l < LI.loops.length, LoopSeparates info l (fun _ => []) M LI →
    LoopSeparates info l (fun _ => []) M' LI'

theorem Grows.refl (M : Module) (LI : LoopInfo) : Grows M LI M LI :=
  ⟨rfl, Nat.le_refl _, fun b hb => ⟨b, hb, rfl⟩, fun _ _ _ hb => hb, fun _ _ _ h => h⟩

theorem Grows.trans {M M' M'' : Module} {LI LI' LI'' : LoopInfo} (h : Grows M LI M' LI')
    (h' : Grows M' LI' M'' LI'') : Grows M LI M'' LI'' := by
  constructor
  · rw [h'.length, h.length]
  · exact Nat.le_trans h.nextId h'.nextId
  · intro b hb
    obtain ⟨c, hc, hcb⟩ := h.blocks b hb
    obtain ⟨d, hd, hdc⟩ := h'.blocks c hc
    exact ⟨d, hd, hdc.trans hcb⟩
  · intro l hl b hb
    exact h'.blocksOf l (h.length ▸ hl) b (h.blocksOf l hl b hb)
  · intro info l hl hs
    exact h'.separated info l (h.length ▸ hl) (h.separated info l hl hs)

theorem splitBlock_grows {M : Module} {LI : LoopInfo} (h : SplitInv M LI) {b : Block}
    (hb : b ∈ M.blocks) (pt : InstId) :
    Grows M LI (M.splitBlock b.id pt).1 (LI.splitUpdate b.id M.nextId) := by
  constructor
  · exact LoopInfo.splitUpdate_length ..
  · exact Nat.le_succ _
  · intro c hc
    have hp := (splitBlock_perm h.ids hb pt).1
    have hm : c.id ∈ (M.splitBlock b.id pt).1.blocks.map Block.id :=
      hp.mem_iff.mpr (List.mem_cons_of_mem _ (List.mem_map_of_mem hc))
    obtain ⟨d, hd, he⟩ := List.mem_map.mp hm
    exact ⟨d, hd, he⟩
  · intro l hl c hc
    exact (LoopInfo.splitUpdate_blocksOf h.loops _ _ hl c).mpr (.inl hc)
  · intro info l hl hs
    exact splitBlock_homogeneous h hb pt hl hs

section Points
variable {info : IteratorInfo} {l : LoopId}

/- The state between two splits: `pend` are the points still to be cut at. -/
structure Pending (info : IteratorInfo) (l : LoopId) (pend : BlockId → List InstId)
    (M : Module) (LI : LoopInfo) : Prop where
  inv : SplitInv M LI
  loop : l < LI.loops.length
  separates : LoopSeparates info l pend M LI
  fresh : ∀ n, M.nextId ≤ n → pend n = []
  known : ∀ n, pend n ≠ [] → n ∈ LI.blocksOf l ∧ ∃ b ∈ M.blocks, b.id = n

theorem splitPoint_pending {pend : BlockId → List InstId} {st : SplitState} {old : BlockId}
    {p : ModeChangePoint} {ps : List InstId} (h : Pending info l pend st.M st.LI)
    (hp : pend old = p.1 :: ps) :
    Pending info l (Function.update pend old ps) (splitPoint old st p).M (splitPoint old st p).LI ∧
      Grows st.M st.LI (splitPoint old st p).M (splitPoint old st p).LI := by
  obtain ⟨hold, b, hb, rfl⟩ := h.known old (by simp [hp])
  have hg := splitBlock_grows h.inv hb p.1
  refine ⟨⟨splitBlock_splitInv h.inv hb p.1, hg.length ▸ h.loop, ?_, ?_, ?_⟩, hg⟩
  · exact splitBlock_pending h.inv hb h.loop hold hp (h.fresh _ (Nat.le_refl _)) h.separates
  · intro n hn
    have hn' : st.M.nextId + 1 ≤ n := hn
    have hle : st.M.nextId ≤ n := Nat.le_of_succ_le hn'
    have hlt : b.id < n := Nat.lt_of_lt_of_le (h.inv.ids.blocks_lt b hb) hle
    rw [Function.update_of_ne (Nat.ne_of_gt hlt)]
    exact h.fresh n hle
  · intro n hn
    have hn' : pend n ≠ [] := by
      by_cases he : n = b.id
      · rw [he, hp]
        simp
      · rwa [Function.update_of_ne he] at hn
    obtain ⟨h1, c, hc, hcn⟩ := h.known n hn'
    obtain ⟨d, hd, hdc⟩ := hg.blocks c hc
    exact ⟨hg.blocksOf l h.loop n h1, d, hd, hdc.trans hcn⟩

theorem splitPoints_pending (ps : List ModeChangePoint) {pend : BlockId → List InstId}
    {st : SplitState} {old : BlockId} (h : Pending info l pend st.M st.LI)
    (hp : pend old = ps.map Prod.fst) :
    Pending info l (Function.update pend old []) (ps.foldl (splitPoint old) st).M
        (ps.foldl (splitPoint old) st).LI ∧
      Grows st.M st.LI (ps.foldl (splitPoint old) st).M (ps.foldl (splitPoint old) st).LI := by
  induction ps generalizing st pend with
  | nil =>
    have he : Function.update pend old [] = pend := Function.update_eq_self_iff.mpr hp.symm
    rw [he]
    exact ⟨h, Grows.refl _ _⟩
  | cons p ps ih =>
    obtain ⟨h1, hg1⟩ := splitPoint_pending h hp
    obtain ⟨h2, hg2⟩ := ih h1 (Function.update_self ..)
    rw [Function.update_idem] at h2
    exact ⟨h2, hg1.trans hg2⟩

/-- Points of a map that are still pending, last one first. -/
def pendingOf (es : ModeChangePointMap) (b : BlockId) : List InstId :=
  (((es.lookup b).getD []).map Prod.fst).reverse

theorem splitEntries_pending {es : ModeChangePointMap} (st : SplitState)
    (hnd : (es.map Prod.fst).Nodup) (h : Pending info l (pendingOf es) st.M st.LI) :
    Pending info l (fun _ => []) (es.foldl splitEntry st).M (es.foldl splitEntry st).LI ∧
      Grows st.M st.LI (es.foldl splitEntry st).M (es.foldl splitEntry st).LI := by
  induction es generalizing st with
  | nil => exact ⟨h, Grows.refl _ _⟩
  | cons e es ih =>
    obtain ⟨b, ps⟩ := e
    simp only [List.map_cons, List.nodup_cons] at hnd
    have hM : (splitEntry st (b, ps)).M = (ps.reverse.foldl (splitPoint b) st).M ∧
        (splitEntry st (b, ps)).LI = (ps.reverse.foldl (splitPoint b) st).LI := by
      simp only [splitEntry]
      split <;> exact ⟨rfl, rfl⟩
    have hpend : pendingOf ((b, ps) :: es) b = ps.reverse.map Prod.fst := by
      simp [pendingOf]
    obtain ⟨h1, hg1⟩ := splitPoints_pending ps.reverse h hpend
    have hrest : Function.update (pendingOf ((b, ps) :: es)) b [] = pendingOf es := by
      funext n
      by_cases hn : n = b
      · subst hn
        rw [Function.update_self]
        have hnone : es.lookup n = none := by
          refine List.lookup_eq_none_iff.mpr fun p hp => ?_
          have : n ≠ p.1 := fun he => hnd.1 (he ▸ List.mem_map_of_mem hp)
          simpa using this
        simp [pendingOf, hnone]
      · rw [Function.update_of_ne hn]
        simp only [pendingOf, List.lookup_cons, beq_eq_false_iff_ne.mpr hn]
    rw [hrest, ← hM.1, ← hM.2] at h1
    rw [← hM.1, ← hM.2] at hg1
    obtain ⟨h2, hg2⟩ := ih _ hnd.2 h1
    exact ⟨h2, hg1.trans hg2⟩

theorem lookup_pushPoint (points : ModeChangePointMap) (b : BlockId) (p : ModeChangePoint)
    (c : BlockId) : ((pushPoint points b p).lookup c).getD [] =
      if c = b then ((points.lookup b).getD []) ++ [p] else (points.lookup c).getD [] := by
  induction points with
  | nil =>
    by_cases hc : c = b
    · simp [pushPoint, hc]
    · simp only [pushPoint, List.lookup_cons, beq_eq_false_iff_ne.mpr hc, if_neg hc]
  | cons e es ih =>
    obtain ⟨k, ps⟩ := e
    by_cases hk : k = b
    · subst hk
      by_cases hc : c = k
      · simp [pushPoint, hc]
      · simp only [pushPoint, if_true, List.lookup_cons, beq_eq_false_iff_ne.mpr hc, if_neg hc]
    · by_cases hc : c = k
      · subst hc
        simp [pushPoint, hk]
      · have hbk : b ≠ k := fun he => hk he.symm
        simp only [pushPoint, if_neg hk, List.lookup_cons, beq_eq_false_iff_ne.mpr hc,
          beq_eq_false_iff_ne.mpr hbk]
        exact ih

theorem pushPoint_keys (points : ModeChangePointMap) (b : BlockId) (p : ModeChangePoint) :
    (pushPoint points b p).map Prod.fst =
      if b ∈ points.map Prod.fst then points.map Prod.fst else points.map Prod.fst ++ [b] := by
  induction points with
  | nil => simp [pushPoint]
  | cons e es ih =>
    obtain ⟨k, ps⟩ := e
    by_cases hk : k = b
    · simp [pushPoint, hk]
    · have hbk : b ≠ k := fun he => hk he.symm
      simp only [pushPoint, if_neg hk, List.map_cons, ih, List.mem_cons, hbk, false_or]
      split <;> rfl

theorem pushPoints_lookup (ps : List ModeChangePoint) (points : ModeChangePointMap)
    (b c : BlockId) :
    ((ps.foldl (fun ps p => pushPoint ps b p) points).lookup c).getD [] =
      if c = b then ((points.lookup b).getD []) ++ ps else (points.lookup c).getD [] := by
  induction ps generalizing points with
  | nil => by_cases hc : c = b <;> simp [hc]
  | cons p ps ih =>
    rw [List.foldl_cons, ih, lookup_pushPoint, lookup_pushPoint]
    by_cases hc : c = b <;> simp [hc]

theorem pushPoints_keys (ps : List ModeChangePoint) {points : ModeChangePointMap} {b : BlockId}
    (hnd : (points.map Prod.fst).Nodup) :
    ((ps.foldl (fun ps p => pushPoint ps b p) points).map Prod.fst).Nodup := by
  induction ps generalizing points with
  | nil => exact hnd
  | cons p ps ih =>
    refine ih ?_
    rw [pushPoint_keys]
    split
    · exact hnd
    · next hb => exact hnd.append (List.nodup_singleton b) (by simpa using hb)

/-- The round for a block pushes the points of that block. -/
theorem scanBlock_points (info : IteratorInfo) (b : Block) (st : BlockModeMapTy × ModeChangePointMap) :
    (scanBlock info b st).2 = (blockPoints info b).foldl (fun ps p => pushPoint ps b.id p) st.2 := by
  unfold scanBlock blockPoints
  by_cases h : phisAgree info b = true
  · simp [h]
  · simp only [h, Bool.false_eq_true, if_false, List.foldl_append]
    cases b.insts.drop (firstInsertionPt b) <;> rfl

theorem findPoints_lookup (info : IteratorInfo) (bs : List Block) (hnd : (bs.map Block.id).Nodup)
    (st : BlockModeMapTy × ModeChangePointMap) (hst : (st.2.map Prod.fst).Nodup) :
    let r := bs.foldl (fun st b => scanBlock info b st) st
    (r.2.map Prod.fst).Nodup ∧
      (∀ b ∈ bs, (r.2.lookup b.id).getD [] = (st.2.lookup b.id).getD [] ++ blockPoints info b) ∧
      ∀ n, n ∉ bs.map Block.id → (r.2.lookup n).getD [] = (st.2.lookup n).getD [] := by
  induction bs generalizing st with
  | nil => exact ⟨hst, by simp, fun _ _ => rfl⟩
  | cons b bs ih =>
    simp only [List.map_cons, List.nodup_cons] at hnd
    have hp := scanBlock_points info b st
    have hkeys : ((scanBlock info b st).2.map Prod.fst).Nodup := by
      rw [hp]
      exact pushPoints_keys _ hst
    have hlook := pushPoints_lookup (blockPoints info b) st.2 b.id
    rw [← hp] at hlook
    obtain ⟨h1, h2, h3⟩ := ih hnd.2 (scanBlock info b st) hkeys
    refine ⟨h1, ?_, ?_⟩
    · intro c hc
      rcases List.mem_cons.mp hc with rfl | hc
      · rw [List.foldl_cons, h3 c.id hnd.1, hlook, if_pos rfl]
      · have hne : c.id ≠ b.id := fun he => hnd.1 (he ▸ List.mem_map_of_mem hc)
        rw [List.foldl_cons, h2 c hc, hlook, if_neg hne]
    · intro n hn
      simp only [List.map_cons, List.mem_cons, not_or] at hn
      rw [List.foldl_cons, h3 n hn.2, hlook, if_neg hn.1]

theorem lookup_of_perm {es es' : ModeChangePointMap} (hp : List.Perm es es')
    (hnd : (es.map Prod.fst).Nodup) (b : BlockId) : es.lookup b = es'.lookup b := by
  induction hp with
  | nil => rfl
  | cons x _ ih =>
    obtain ⟨k, v⟩ := x
    simp only [List.map_cons, List.nodup_cons] at hnd
    simp only [List.lookup_cons, ih hnd.2]
  | swap x y es =>
    obtain ⟨k, v⟩ := x
    obtain ⟨k', v'⟩ := y
    simp only [List.map_cons, List.nodup_cons, List.mem_cons, not_or] at hnd
    have hne : k ≠ k' := fun he => hnd.1.1 he.symm
    simp only [List.lookup_cons]
    by_cases hk : b = k
    · simp only [hk, beq_self_eq_true, beq_eq_false_iff_ne.mpr hne]
    · simp only [beq_eq_false_iff_ne.mpr hk]
  | trans h1 _ ih1 ih2 => rw [ih1 hnd, ih2 ((h1.map Prod.fst).nodup_iff.mp hnd)]

/- The points found for a loop are pending before its first split. -/
theorem findPartitionPoints_pending {M : Module} {LI : LoopInfo} (h : SplitInv M LI) (hl : l < LI.loops.length)
    {modes : BlockModeMapTy} {found : BlockModeMapTy × ModeChangePointMap}
    (hfound : findPartitionPoints M (LI.blocksOf l) info modes [] = some found) :
    (found.2.map Prod.fst).Nodup ∧ Pending info l (pendingOf found.2) M LI := by
  have hnd : ((M.region (LI.blocksOf l)).map Block.id).Nodup :=
    (region_ids_sublist M _).nodup (h.loops.blocks_nodup l hl)
  obtain ⟨-, rfl⟩ := findPartitionPoints_some hfound
  obtain ⟨hkeys, hin, hout⟩ := findPoints_lookup info _ hnd (modes, []) List.nodup_nil
  refine ⟨hkeys, h, hl, ?_, ?_, ?_⟩
  · intro b hb hbl
    have hpts := hin b ((mem_region h.ids).mpr ⟨hb, hbl⟩)
    rw [pendingOf, hpts]
    exact separates_blockPoints info (h.phisFirst b hb) (h.noEHPad b hb)
  · intro n hn
    have hno : n ∉ (M.region (LI.blocksOf l)).map Block.id := by
      intro hm
      have := h.blocks_lt l hl n ((region_ids_sublist M _).subset hm)
      exact Nat.lt_irrefl _ (Nat.lt_of_lt_of_le this hn)
    rw [pendingOf, hout n hno]
    rfl
  · intro n hn
    by_contra hno
    have hm : n ∉ (M.region (LI.blocksOf l)).map Block.id := by
      intro hm
      obtain ⟨b, hb, rfl⟩ := List.mem_map.mp hm
      obtain ⟨h1, h2⟩ := (mem_region h.ids).mp hb
      exact hno ⟨h2, b, h1, rfl⟩
    rw [pendingOf, hout n hm] at hn
    exact hn rfl

end Points

/-- One round of the loop over the loops: invariants stay, earlier loops stay
homogeneous, and the loop itself becomes so. -/
theorem separateLoop_step {addr : BlockId → Nat} {infos : LoopId → Option IteratorInfo}
    {st r : Bool × Module × LoopInfo} {l : LoopId} (h : SplitInv st.2.1 st.2.2)
    (hl : l < st.2.2.loops.length) (hr : separateLoop addr infos st l = some r) :
    SplitInv r.2.1 r.2.2 ∧ Grows st.2.1 st.2.2 r.2.1 r.2.2 ∧
      ∀ info, infos l = some info → LoopSeparates info l (fun _ => []) r.2.1 r.2.2 := by
  unfold separateLoop at hr
  cases hi : infos l with
  | none =>
    rw [hi] at hr
    obtain rfl := Option.some.inj hr
    exact ⟨h, Grows.refl _ _, fun info he => by cases he⟩
  | some info =>
    rw [hi] at hr
    obtain ⟨found, hfound, rfl⟩ := Option.map_eq_some_iff.mp hr
    obtain ⟨hkeys, hpend⟩ := findPartitionPoints_pending h hl hfound
    split
    · next hempty =>
      have hnil : found.2 = [] := List.isEmpty_iff.mp hempty
      refine ⟨h, Grows.refl _ _, fun _ he => ?_⟩
      rw [← Option.some.inj he]
      have hsep := hpend.separates
      rw [hnil] at hsep
      exact hsep
    · have hperm := List.perm_insertionSort (fun x y : BlockId × List ModeChangePoint =>
        addr x.1 ≤ addr y.1) found.2
      have hkeys' := ((hperm.map Prod.fst).nodup_iff).mpr hkeys
      have hsame : pendingOf (found.2.insertionSort fun x y => addr x.1 ≤ addr y.1) =
          pendingOf found.2 := by
        funext b
        rw [pendingOf, pendingOf, lookup_of_perm hperm hkeys']
      have hsplit := splitEntries_pending ⟨st.2.1, st.2.2, found.1⟩ hkeys'
        (hsame.symm ▸ hpend)
      exact ⟨hsplit.1.inv, hsplit.2, fun _ he => Option.some.inj he ▸ hsplit.1.separates⟩

/-- The run over the first `n` loops. -/
theorem separateLoops_run {addr : BlockId → Nat} {infos : LoopId → Option IteratorInfo}
    {M : Module} {LI : LoopInfo} (h : SplitInv M LI) {n : Nat} (hn : n ≤ LI.loops.length)
    {r : Bool × Module × LoopInfo} (hr : (List.range n).foldlM (separateLoop addr infos) (false, M, LI) = some r) :
    SplitInv r.2.1 r.2.2 ∧ Grows M LI r.2.1 r.2.2 ∧ ∀ l < n, ∀ info, infos l = some info →
      LoopSeparates info l (fun _ => []) r.2.1 r.2.2 := by
  induction n generalizing r with
  | zero =>
    obtain rfl := Option.some.inj hr
    exact ⟨h, Grows.refl _ _, fun l hl => absurd hl (Nat.not_lt_zero l)⟩
  | succ n ih =>
    rw [List.range_succ, List.foldlM_append] at hr
    obtain ⟨s, hs, hstep⟩ := Option.bind_eq_some_iff.mp hr
    rw [List.foldlM_cons] at hstep
    obtain ⟨r', hr', hlast⟩ := Option.bind_eq_some_iff.mp hstep
    obtain rfl := Option.some.inj hlast
    obtain ⟨h1, hg1, hs1⟩ := ih (Nat.le_of_succ_le hn) hs
    obtain ⟨h2, hg2, hs2⟩ := separateLoop_step h1 (hg1.length ▸ hn) hr'
    refine ⟨h2, hg1.trans hg2, fun l hl info hi => ?_⟩
    rcases Nat.lt_succ_iff_lt_or_eq.mp hl with hl | rfl
    · exact hg2.separated info l (hg1.length ▸ Nat.lt_trans hl hn) (hs1 l hl info hi)
    · exact hs2 info hi

/- A round without a point changes nothing. -/
theorem separateLoop_unchanged {addr : BlockId → Nat} {infos : LoopId → Option IteratorInfo}
    {st r : Bool × Module × LoopInfo} {l : LoopId} (hr : separateLoop addr infos st l = some r) (h : r.1 = false) :
    r = st := by
  unfold separateLoop at hr
  cases hi : infos l with
  | none =>
    rw [hi] at hr
    exact (Option.some.inj hr).symm
  | some info =>
    rw [hi] at hr
    obtain ⟨found, -, rfl⟩ := Option.map_eq_some_iff.mp hr
    dsimp only at h ⊢
    split at h
    · next hempty => rw [if_pos hempty]
    · cases h

theorem separateLoops_unchanged {addr : BlockId → Nat} {infos : LoopId → Option IteratorInfo} (ls : List LoopId)
    {st r : Bool × Module × LoopInfo} (hr : ls.foldlM (separateLoop addr infos) st = some r) (h : r.1 = false) :
    r = st := by
  induction ls generalizing st with
  | nil => exact (Option.some.inj hr).symm
  | cons l ls ih =>
    rw [List.foldlM_cons] at hr
    obtain ⟨s, hs, hrest⟩ := Option.bind_eq_some_iff.mp hr
    obtain rfl := ih hrest
    exact separateLoop_unchanged hs h

theorem perform_listed (addr : BlockId → Nat) (infos : LoopId → Option IteratorInfo) {whiteList : Option (List String)}
    {name : String} (hlisted : ∀ ws, whiteList = some ws → name ∈ ws) (M : Module) (LI : LoopInfo) :
    perform addr infos false whiteList name M LI =
      (List.range LI.loops.length).foldlM (separateLoop addr infos) (false, M, LI) := by
  have hrun : (false || whiteList.any fun ws => name ∉ ws) = false := by
    cases whiteList with
    | none => rfl
    | some ws => simpa using hlisted ws rfl
  rw [perform, hrun, if_neg Bool.false_ne_true]

/- A loop of one block: `i` and its increment drive the loop, the load between is payload. -/
def counterLoop : Module where
  funcs := [{ id := 9, params := [], isVarArg := false, blocks :=
    [⟨0, [Inst.uncondBr 20 1], false⟩,
     ⟨1, [⟨21, .phi, .int 32, [.const (.int 32 0), .inst 23 (.int 32)], [0, 1], []⟩,
          ⟨22, .load, .int 32, [.global 0 (.int 32) 0], [], []⟩,
          ⟨23, .add, .int 32, [.inst 21 (.int 32), .const (.int 32 1)], [], []⟩,
          ⟨24, .br, .void, [.inst 23 (.int 32)], [], [1, 2]⟩], false⟩,
     ⟨2, [⟨25, .ret, .void, [], [], []⟩], false⟩] }]
  nextId := 30
  valueName := fun _ => ""
  initUsesBlockAddress := fun _ => false

def counterLoops : LoopInfo where
  loops := [⟨1, [1], none⟩]
  bbMap := fun b => if b = 1 then some 0 else none

def counterInfo : IteratorInfo := ⟨fun i => i ∈ [21, 23, 24], true⟩

theorem counterLoop_splitInv : SplitInv counterLoop counterLoops := by
  constructor
  · exact ⟨by decide, by decide, by decide, by decide⟩
  · constructor
    · intro l hl b
      obtain rfl : l = 0 := Nat.lt_one_iff.mp hl
      by_cases hb : b = 1
      · subst hb
        simp [counterLoops, LoopInfo.blocksOf, LoopInfo.enclosing, LoopInfo.ancestors]
      · simp [counterLoops, LoopInfo.blocksOf, hb]
    · decide
  · decide
  · decide
  · intro b hb
    refine ⟨b.insts.takeWhile Inst.isPHI, b.insts.dropWhile Inst.isPHI,
      List.takeWhile_append_dropWhile.symm, ?_, ?_⟩
    · revert b
      decide
    · revert b
      decide

end Atrox
