import Atrox.Transforms.SplitBehaviour

/-!
# Functions aside

What the extractor does to the blocks it works on does not reach a function that has none of them and uses no
instruction in them.
-/

namespace Atrox
open IR Lib

/- A block is in one function. -/
theorem func_unique {M : Module} (hM : M.Ids) {F G : Function} (hF : F ∈ M.funcs) (hG : G ∈ M.funcs) {b : Block}
    (hbF : b ∈ F.blocks) (hbG : b ∈ G.blocks) : F = G := by
  have hnd : (M.funcs.flatMap Function.blocks).Nodup := hM.blocks_nodup.of_map _
  obtain ⟨-, hdis⟩ := List.nodup_flatMap.mp hnd
  have hsymm : Std.Symm (Function.onFun List.Disjoint Function.blocks) := ⟨fun _ _ h => h.symm⟩
  by_contra hne
  exact hdis.forall hF hG hne hbF hbG

/- `G` has no block of `B` and no operand that is an instruction in one. -/
structure Aside (M : Module) (B : BlockId → Prop) (G : Function) : Prop where
  blocks : ∀ x ∈ G.blocks, ¬B x.id
  operands : ∀ i ∈ G.insts, ∀ j t, Value.inst j t ∈ i.operands → ∀ x ∈ M.blocks, B x.id → j ∉ x.insts.map Inst.id

/- The functions aside stay as they are, and aside. -/
def Spares (M : Module) (B : BlockId → Prop) (N : Module) (B' : BlockId → Prop) : Prop :=
  ∀ G ∈ M.funcs, Aside M B G → G ∈ N.funcs ∧ Aside N B' G

section Spares
variable {M N K : Module} {B B' B'' : BlockId → Prop}

theorem Spares.refl : Spares M B M B := fun _ hG ha => ⟨hG, ha⟩

theorem Spares.trans (h : Spares M B N B') (h' : Spares N B' K B'') : Spares M B K B'' := by
  intro G hG ha
  obtain ⟨hGN, haN⟩ := h G hG ha
  exact h' G hGN haN

/- The instructions of `B'` are those of `B`, and new ones. -/
def Gains (M : Module) (B : BlockId → Prop) (N : Module) (B' : BlockId → Prop) : Prop :=
  ∀ y ∈ N.blocks, B' y.id → ∀ i ∈ y.insts, (∃ x ∈ M.blocks, B x.id ∧ i.id ∈ x.insts.map Inst.id) ∨ M.nextId ≤ i.id

/- An old function knows no new block and no new instruction. -/
theorem Aside.gains (hM : M.WF) {G : Function} (hG : G ∈ M.funcs) (h : Aside M B G)
    (hB : ∀ n, B' n → B n ∨ M.nextId ≤ n) (hgain : Gains M B N B') : Aside N B' G where
  blocks := by
    intro x hx hx'
    rcases hB x.id hx' with hold | hnew
    · exact h.blocks x hx hold
    · exact absurd (hM.blocks_lt x (List.mem_flatMap.mpr ⟨G, hG, hx⟩)) (Nat.not_lt.mpr hnew)
  operands := by
    intro i hi j t hj y hy hBy hmem
    obtain ⟨k, hk, rfl⟩ := List.mem_map.mp hmem
    obtain ⟨b, hb, hib⟩ := List.mem_flatMap.mp hi
    have hiM : i ∈ M.insts := List.mem_flatMap.mpr ⟨b, List.mem_flatMap.mpr ⟨G, hG, hb⟩, hib⟩
    rcases hgain y hy hBy k hk with ⟨x, hx, hBx, hkx⟩ | hnew
    · exact h.operands i hi k.id t hj x hx hBx hkx
    · exact absurd (hM.operands_lt i hiM k.id t hj) (Nat.not_lt.mpr hnew)

theorem mapBlocks_spared {g : Block → Block} {G : Function} (hG : G ∈ M.funcs) (hg : ∀ x ∈ G.blocks, g x = x) :
    G ∈ (M.mapBlocks g).funcs := by
  refine List.mem_map.mpr ⟨G, hG, ?_⟩
  rw [Function.mapBlocks, List.map_congr_left hg, List.map_id']

theorem mapIn_spared {g : Block → Block} (bs : List BlockId) {G : Function} (hG : G ∈ M.funcs)
    (hbs : ∀ x ∈ G.blocks, x.id ∉ bs) : G ∈ (M.mapIn bs g).funcs :=
  mapBlocks_spared hG fun x hx => if_neg (hbs x hx)

end Spares

section Split
variable {M : Module} {B : BlockId → Prop} {b : Block} {xs ys : List Inst} {i : Inst}

theorem cutBlock_spared {old : BlockId} (pt : InstId) {G : Function} (hG : G ∈ M.funcs) (h : ∀ x ∈ G.blocks, x.id ≠ old) :
    G ∈ (M.cutBlock old pt).funcs := by
  refine List.mem_map.mpr ⟨G, hG, ?_⟩
  rw [flatMap_cut_of_notMem G.blocks old pt M.nextId h]

theorem cutBlock_succs (hM : M.Ids) (hb : b ∈ M.blocks) (hsplit : b.insts = xs ++ i :: ys) (hphi : i.isPHI = false)
    (hpad : i.op.isEHPad = false) : (((M.cutBlock b.id i.id).block? M.nextId).map Block.succs).getD [] = b.succs := by
  have hk := splitIndex_eq hsplit (block_insts_nodup hM hb) hphi hpad
  have hmem : (⟨M.nextId, i :: ys, false⟩ : Block) ∈ (M.cutBlock b.id i.id).blocks := by
    rw [cutBlock_blocks, List.mem_flatMap]
    refine ⟨b, hb, ?_⟩
    rw [Block.cut, if_pos rfl, hk, Block.splitAt, hsplit, List.drop_left]
    exact List.mem_cons_of_mem _ (List.mem_singleton_self _)
  rw [block?_of_nodup (cutBlock_ids hM b.id i.id) hmem]
  exact tailHalf_succs hsplit M.nextId

theorem splitBlock_spares (hM : M.WF) (hv : ValidOn M B) (hb : b ∈ M.blocks) (hB : B b.id)
    (hsplit : b.insts = xs ++ i :: ys) (hphi : i.isPHI = false) (hpad : i.op.isEHPad = false) :
    Spares M B (M.splitBlock b.id i.id).1 fun n => B n ∨ n = M.nextId := by
  intro G hG ha
  have hout : ∀ x ∈ G.blocks, x.id ∉ b.succs := fun x hx hs => ha.blocks x hx (hv.succ b hb hB x.id hs)
  have hcut := cutBlock_spared i.id hG fun x hx he => ha.blocks x hx (he ▸ hB)
  refine ⟨?_, ha.gains hM hG (fun n hn => hn.imp_right fun he => Nat.le_of_eq he.symm) ?_⟩
  · rw [Module.splitBlock, cutBlock_succs hM.toIds hb hsplit hphi hpad]
    exact mapIn_spared _ hcut hout
  · intro y hy hBy u hu
    obtain ⟨c, rfl, hc⟩ := (splitBlock_exact hM.toIds hb hsplit hphi hpad y).mp hy
    rw [redirectIn_id] at hBy
    obtain ⟨k, hk, hcore, -⟩ := redirectIn_incoming hu
    rw [id_of_core hcore]
    rcases hc with ⟨hcm, -⟩ | rfl | rfl
    · rcases hBy with hBy | hid
      · exact .inl ⟨c, hcm, hBy, List.mem_map_of_mem hk⟩
      · exact absurd hid (Nat.ne_of_lt (hM.blocks_lt c hcm))
    · rcases List.mem_append.mp hk with hk | hk
      · refine .inl ⟨b, hb, hB, List.mem_map_of_mem ?_⟩
        rw [hsplit]
        exact List.mem_append_left _ hk
      · rw [List.mem_singleton.mp hk]
        exact .inr (Nat.le_refl _)
    · refine .inl ⟨b, hb, hB, List.mem_map_of_mem ?_⟩
      rw [hsplit]
      exact List.mem_append_right _ hk

end Split

section Sever
variable {M N : Module} {B : BlockId → Prop} {old new : BlockId}

/- A rewriting that keeps the numbers of the instructions. -/
theorem Rewrites.gains {front : Block → List Inst} {g : Block → Inst → Inst} (h : Rewrites M N front g)
    (hfront : ∀ b, ∀ i ∈ front b, M.nextId ≤ i.id) : Gains M B N B := by
  intro y hy hBy i hi
  obtain ⟨b, hb, rfl⟩ := h.mem hy
  rcases List.mem_append.mp hi with hi | hi
  · exact .inr (hfront b i hi)
  · obtain ⟨k, hk, rfl⟩ := List.mem_map.mp hi
    rw [id_of_head (h.head b k)]
    exact .inl ⟨b, hb, hBy, List.mem_map_of_mem hk⟩

theorem latches_spares (hM : M.WF) {latches : List BlockId} (hl : ∀ b ∈ latches, B b) (src dst : BlockId) :
    Spares M B (M.mapIn latches (Block.mapInsts (Inst.replaceSuccOfWith src dst))) B := by
  intro G hG ha
  have hgain : Gains M B (M.mapIn latches (Block.mapInsts (Inst.replaceSuccOfWith src dst))) B :=
    (latches_blocks M latches src dst).gains fun _ _ hi => absurd hi List.not_mem_nil
  exact ⟨mapIn_spared _ hG fun x hx hmem => ha.blocks x hx (hl x.id hmem), ha.gains hM hG (fun _ => .inl) hgain⟩

/- Every instruction is where it was. -/
theorem latches_keep {latches : List BlockId} {src dst : BlockId} {x : Block} (hx : x ∈ M.blocks) (hB : B x.id) {p : InstId}
    (hp : p ∈ x.insts.map Inst.id) : ∃ z ∈ (M.mapIn latches (Block.mapInsts (Inst.replaceSuccOfWith src dst))).blocks,
      B z.id ∧ p ∈ z.insts.map Inst.id := by
  rw [mapIn_blocks]
  refine ⟨_, List.mem_map_of_mem hx, ?_⟩
  split
  · exact ⟨hB, (mapInsts_ids (g := Inst.replaceSuccOfWith src dst) (fun _ => rfl) x).symm ▸ hp⟩
  · exact ⟨hB, hp⟩

/- One round, for a function that does not use the PHI. -/
theorem severPHI_spared {ce ce' : CodeExtractor} {pn : InstId} (h : severPHI old new (ce, M) pn = some (ce', N))
    {G : Function} (hG : G ∈ M.funcs) (hold : ∀ x ∈ G.blocks, x.id ≠ old) (hnew : ∀ x ∈ G.blocks, x.id ≠ new)
    (huse : ∀ i ∈ G.insts, ∀ t, Value.inst pn t ∉ i.operands) : G ∈ N.funcs := by
  obtain ⟨PN, moved, kept, hPN, -, -, -, rfl⟩ := severPHI_inv h
  have hval : PN.val = .inst pn PN.ty := by rw [Inst.val, inst?_id hPN]
  have hrauw : G ∈ (M.replaceAllUsesWith PN.val (.inst M.nextId PN.ty)).funcs := by
    refine mapBlocks_spared hG fun x hx => ?_
    have hinst : ∀ i ∈ x.insts, i.replaceUsesOfWith PN.val (.inst M.nextId PN.ty) = i := by
      intro i hi
      have hno := huse i (List.mem_flatMap.mpr ⟨x, hx, hi⟩) PN.ty
      rw [← hval] at hno
      have hops : ∀ v ∈ i.operands, (if v = PN.val then Value.inst M.nextId PN.ty else v) = v := by
        intro v hv
        have hne : v ≠ PN.val := fun he => hno (he ▸ hv)
        exact if_neg hne
      rw [Inst.replaceUsesOfWith, List.map_congr_left hops, List.map_id']
    rw [Block.mapInsts, List.map_congr_left hinst, List.map_id']
  have hfront := mapIn_spared (g := Block.mapInsts fun i => if i.id = pn then
    { i with incoming := kept.map Prod.fst, operands := kept.map Prod.snd } else i) [old] hrauw
    fun x hx hmem => hold x hx (List.mem_singleton.mp hmem)
  exact mapIn_spared (g := consInst _) [new] hfront fun x hx hmem => hnew x hx (List.mem_singleton.mp hmem)

/- The rounds for PHIs of blocks of `B`. -/
theorem rounds_spares {ce ce' : CodeExtractor} {ps : List InstId} (hM : M.WF) (hold : B old) (hnew : B new)
    (hps : ∀ p ∈ ps, ∃ x ∈ M.blocks, B x.id ∧ p ∈ x.insts.map Inst.id)
    (h : ps.foldlM (severPHI old new) (ce, M) = some (ce', N)) : Spares M B N B := by
  intro G hG ha
  have hstart : Gains M B M B := fun y hy hBy i hi => .inl ⟨y, hy, hBy, List.mem_map_of_mem hi⟩
  have hrun := foldlM_preserves (P := fun st : CodeExtractor × Module =>
    G ∈ st.2.funcs ∧ M.nextId ≤ st.2.nextId ∧ Gains M B st.2 B) ps ?_ ⟨hG, Nat.le_refl _, hstart⟩ h
  · exact ⟨hrun.1, ha.gains hM hG (fun _ => .inl) hrun.2.2⟩
  · rintro pn ⟨c, K⟩ ⟨c', K'⟩ hpn ⟨hGK, hle, hgain⟩ hstep
    obtain ⟨x, hx, hBx, hmem⟩ := hps pn hpn
    have hold' : ∀ y ∈ G.blocks, y.id ≠ old := fun y hy he => ha.blocks y hy (he ▸ hold)
    have hnew' : ∀ y ∈ G.blocks, y.id ≠ new := fun y hy he => ha.blocks y hy (he ▸ hnew)
    refine ⟨severPHI_spared hstep hGK hold' hnew' (fun i hi t hop => ha.operands i hi pn t hop x hx hBx hmem), ?_, ?_⟩
    · obtain ⟨PN, moved, kept, -, -, -, -, rfl⟩ := severPHI_inv hstep
      exact Nat.le_succ_of_le hle
    · obtain ⟨PN, -, hr⟩ := severPHI_exact hstep
      have hround : Gains K B K' B := hr.gains fun b i hi => by
        split at hi
        · rw [List.mem_singleton.mp hi]
          exact Nat.le_refl _
        · cases hi
      intro y hy hBy i hi
      rcases hround y hy hBy i hi with ⟨z, hz, hBz, hmem⟩ | hge
      · obtain ⟨k, hk, hki⟩ := List.mem_map.mp hmem
        exact hki ▸ hgain z hz hBz k hk
      · exact .inr (Nat.le_trans hle hge)

end Sever

/- What is used in `B` is an instruction of `B`. -/
def UsesInside (M : Module) (B : BlockId → Prop) : Prop :=
  ∀ x ∈ M.blocks, B x.id → ∀ i ∈ x.insts, ∀ j t, Value.inst j t ∈ i.operands →
    ∃ y ∈ M.blocks, B y.id ∧ j ∈ y.insts.map Inst.id

section Uses
variable {M N : Module} {B B' : BlockId → Prop}

/- Instructions of `B` stay in `B'`, and what is used in `B'` are uses in `B` or instructions of `B'`. -/
theorem UsesInside.of_step (h : UsesInside M B)
    (hkeep : ∀ x ∈ M.blocks, B x.id → ∀ j ∈ x.insts.map Inst.id, ∃ y ∈ N.blocks, B' y.id ∧ j ∈ y.insts.map Inst.id)
    (huse : ∀ y ∈ N.blocks, B' y.id → ∀ u ∈ y.insts, ∀ j t, Value.inst j t ∈ u.operands →
      (∃ x ∈ M.blocks, B x.id ∧ ∃ i ∈ x.insts, Value.inst j t ∈ i.operands) ∨
        ∃ z ∈ N.blocks, B' z.id ∧ j ∈ z.insts.map Inst.id) : UsesInside N B' := by
  intro y hy hBy u hu j t hj
  rcases huse y hy hBy u hu j t hj with ⟨x, hx, hBx, i, hi, hji⟩ | hown
  · obtain ⟨z, hz, hBz, hjz⟩ := h x hx hBx i hi j t hji
    exact hkeep z hz hBz j hjz
  · exact hown

theorem splitBlock_usesInside {b : Block} {xs ys : List Inst} {i : Inst} (hM : M.WF) (h : UsesInside M B)
    (hb : b ∈ M.blocks) (hB : B b.id) (hsplit : b.insts = xs ++ i :: ys) (hphi : i.isPHI = false)
    (hpad : i.op.isEHPad = false) : UsesInside (M.splitBlock b.id i.id).1 fun n => B n ∨ n = M.nextId := by
  have hex := splitBlock_exact hM.toIds hb hsplit hphi hpad
  have hids : ∀ c : Block, ∀ j ∈ c.insts.map Inst.id, j ∈ (c.redirectIn b.succs b.id M.nextId).insts.map Inst.id := by
    intro c j hj
    have hcore := congrArg (List.map Inst.id) (redirectIn_core b.succs b.id M.nextId c)
    simp only [List.map_map] at hcore
    exact (hcore.symm ▸ hj : j ∈ ((c.redirectIn b.succs b.id M.nextId).insts.map (Inst.id ∘ Inst.core)))
  refine h.of_step ?_ ?_
  · intro x hx hBx j hj
    by_cases he : x.id = b.id
    · obtain rfl := List.inj_on_of_nodup_map hM.blocks_nodup hx hb he
      rw [hsplit, List.map_append, List.mem_append] at hj
      rcases hj with hj | hj
      · refine ⟨_, (hex _).mpr ⟨headHalf x xs M.nextId, rfl, .inr (.inl rfl)⟩, .inl (by rwa [redirectIn_id]), hids _ j ?_⟩
        rw [headHalf, List.map_append]
        exact List.mem_append_left _ hj
      · exact ⟨_, (hex _).mpr ⟨tailHalf (i :: ys) M.nextId, rfl, .inr (.inr rfl)⟩, .inr (redirectIn_id ..), hids _ j hj⟩
    · exact ⟨_, (hex _).mpr ⟨x, rfl, .inl ⟨hx, he⟩⟩, .inl (by rwa [redirectIn_id]), hids x j hj⟩
  · intro y hy hBy u hu j t hj
    refine .inl ?_
    obtain ⟨c, rfl, hc⟩ := (hex y).mp hy
    rw [redirectIn_id] at hBy
    obtain ⟨k, hk, hcore, -⟩ := redirectIn_incoming hu
    rw [operands_of_core hcore] at hj
    rcases hc with ⟨hcm, -⟩ | rfl | rfl
    · rcases hBy with hBy | hid
      · exact ⟨c, hcm, hBy, k, hk, hj⟩
      · exact absurd hid (Nat.ne_of_lt (hM.blocks_lt c hcm))
    · rcases List.mem_append.mp hk with hk | hk
      · exact ⟨b, hb, hB, k, hsplit ▸ List.mem_append_left _ hk, hj⟩
      · rw [List.mem_singleton.mp hk] at hj
        cases hj
    · exact ⟨b, hb, hB, k, hsplit ▸ List.mem_append_right _ hk, hj⟩

theorem Rewrites.image {front : Block → List Inst} {g : Block → Inst → Inst} (h : Rewrites M N front g) {x : Block}
    (hx : x ∈ M.blocks) : { x with insts := front x ++ x.insts.map (g x) } ∈ N.blocks := by
  rw [h.blocks]
  exact List.mem_map.mpr ⟨x, hx, rfl⟩

/- A rewriting keeps the numbers of the instructions in each block. -/
theorem Rewrites.keep {front : Block → List Inst} {g : Block → Inst → Inst} (h : Rewrites M N front g) {x : Block}
    (hx : x ∈ M.blocks) (hB : B x.id) {j : InstId} (hj : j ∈ x.insts.map Inst.id) :
    ∃ y ∈ N.blocks, B y.id ∧ j ∈ y.insts.map Inst.id := by
  obtain ⟨i, hi, rfl⟩ := List.mem_map.mp hj
  refine ⟨_, h.image hx, hB, ?_⟩
  rw [List.map_append, List.map_map]
  exact List.mem_append_right _ (List.mem_map.mpr ⟨i, hi, id_of_head (h.head x i)⟩)

theorem latches_usesInside (h : UsesInside M B) (latches : List BlockId) (src dst : BlockId) :
    UsesInside (M.mapIn latches (Block.mapInsts (Inst.replaceSuccOfWith src dst))) B := by
  have hr := latches_blocks M latches src dst
  refine h.of_step (fun x hx hBx j hj => hr.keep hx hBx hj) fun y hy hBy u hu j t hj => .inl ?_
  obtain ⟨b, hb, rfl⟩ := hr.mem hy
  obtain ⟨i, hi, rfl⟩ := List.mem_map.mp hu
  refine ⟨b, hb, hBy, i, hi, ?_⟩
  split at hj <;> exact hj

/- The new PHI stands in `B`, and the old one does. -/
theorem severPHI_usesInside {ce ce' : CodeExtractor} {old new : BlockId} {pn : InstId} (hM : M.WF) (h : UsesInside M B)
    (hnew : ∃ y ∈ M.blocks, y.id = new) (hBnew : B new) (hpn : ∃ x ∈ M.blocks, B x.id ∧ pn ∈ x.insts.map Inst.id)
    (hs : severPHI old new (ce, M) pn = some (ce', N)) : UsesInside N B := by
  obtain ⟨PN, hPN, kept, moved, hedges, -, hr⟩ := severPHI_blocks hs
  obtain ⟨x, hx, hBx, hmem⟩ := hpn
  obtain ⟨k, hk, hkid⟩ := List.mem_map.mp hmem
  obtain rfl : k = PN := inst_unique hM.toIds (List.mem_flatMap.mpr ⟨x, hx, hk⟩) (inst?_mem hPN) (hkid.trans (inst?_id hPN).symm)
  obtain ⟨y, hy, rfl⟩ := hnew
  -- the new PHI
  have hown : ∃ z ∈ N.blocks, B z.id ∧ M.nextId ∈ z.insts.map Inst.id := by
    refine ⟨_, hr.image hy, hBnew, ?_⟩
    rw [if_pos rfl]
    exact List.mem_cons_self ..
  -- what a use becomes
  have hreplaced : ∀ x ∈ M.blocks, B x.id → ∀ i ∈ x.insts, ∀ j t,
      Value.inst j t ∈ (i.replaceUsesOfWith k.val (.inst M.nextId k.ty)).operands →
      (∃ x ∈ M.blocks, B x.id ∧ ∃ i ∈ x.insts, Value.inst j t ∈ i.operands) ∨
        ∃ z ∈ N.blocks, B z.id ∧ j ∈ z.insts.map Inst.id := by
    intro x hx hBx i hi j t hj
    obtain ⟨v, hv, he⟩ := List.mem_map.mp hj
    split at he
    · cases he
      exact .inr hown
    · exact .inl ⟨x, hx, hBx, i, hi, he ▸ hv⟩
  refine h.of_step (fun x hx hBx j hj => hr.keep hx hBx hj) fun z hz hBz u hu j t hj => ?_
  obtain ⟨b, hb, rfl⟩ := hr.mem hz
  rcases List.mem_append.mp hu with hu | hu
  · split at hu
    · rw [List.mem_singleton.mp hu] at hj
      rcases List.mem_cons.mp hj with hj | hj
      · -- the new PHI reads the old one
        cases hj
        exact .inr (hr.keep hx hBx (List.mem_map_of_mem hk))
      · obtain ⟨e, he, hej⟩ := List.mem_map.mp hj
        exact hreplaced x hx hBx k hk j t (hej ▸ hedges e (List.mem_append_right _ he))
    · cases hu
  · obtain ⟨i, hi, rfl⟩ := List.mem_map.mp hu
    unfold severInst at hj
    split at hj
    · obtain ⟨e, he, hej⟩ := List.mem_map.mp hj
      exact hreplaced x hx hBx k hk j t (hej ▸ hedges e (List.mem_append_left _ he))
    · exact hreplaced b hb hBz i hi j t hj

theorem rounds_usesInside {ce ce' : CodeExtractor} {old new : BlockId} {ps : List InstId} (hM : M.WF) (h : UsesInside M B)
    (hnew : ∃ y ∈ M.blocks, y.id = new) (hBnew : B new)
    (hps : ∀ p ∈ ps, ∃ x ∈ M.blocks, B x.id ∧ p ∈ x.insts.map Inst.id)
    (hs : ps.foldlM (severPHI old new) (ce, M) = some (ce', N)) : UsesInside N B := by
  have hrun := foldlM_preserves (P := fun st : CodeExtractor × Module => st.2.WF ∧ UsesInside st.2 B ∧
    (∃ y ∈ st.2.blocks, y.id = new) ∧ ∀ p ∈ ps, ∃ x ∈ st.2.blocks, B x.id ∧ p ∈ x.insts.map Inst.id) ps ?_
    ⟨hM, h, hnew, hps⟩ hs
  · exact hrun.2.1
  · rintro pn ⟨c, K⟩ ⟨c', K'⟩ hpn ⟨hK, hin, hnew', hps'⟩ hstep
    obtain ⟨hK', -, -, hids, -⟩ := severPHI_wf hK hstep
    obtain ⟨PN, -, kept, moved, -, -, hr⟩ := severPHI_blocks hstep
    refine ⟨hK', severPHI_usesInside hK hin hnew' hBnew (hps' pn hpn) hstep, ?_, ?_⟩
    · obtain ⟨y, hy, rfl⟩ := hnew'
      exact List.mem_map.mp (hids ▸ List.mem_map_of_mem hy)
    · intro p hp
      obtain ⟨x, hx, hBx, hmem⟩ := hps' p hp
      exact hr.keep hx hBx hmem

end Uses

end Atrox
