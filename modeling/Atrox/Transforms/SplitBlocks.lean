import Atrox.Transforms.CloneShape
import Atrox.Transforms.SeveredBlocks

/-!
# Split blocks, exactly

The blocks after `SplitBlock` one by one, and the region once its returns are split off.
-/

namespace Atrox
open IR Lib

section Split

/- The PHIs of the blocks of `succs` learn that an edge from `old` now leaves `new`. -/
def IR.Block.redirectIn (succs : List BlockId) (old new : BlockId) (b : Block) : Block :=
  if b.id ∈ succs then b.redirectPHIs old new else b

@[simp] theorem redirectIn_id (succs : List BlockId) (old new : BlockId) (b : Block) :
    (b.redirectIn succs old new).id = b.id := by
  unfold Block.redirectIn
  split <;> rfl

theorem redirectIn_nil (old new : BlockId) (b : Block) : b.redirectIn [] old new = b :=
  if_neg List.not_mem_nil

theorem redirectIn_core (succs : List BlockId) (old new : BlockId) (b : Block) :
    (b.redirectIn succs old new).insts.map Inst.core = b.insts.map Inst.core := by
  unfold Block.redirectIn
  split
  · exact redirectPHIs_core old new b
  · rfl

/- The edges a PHI has after the redirection. -/
theorem redirectIn_incoming {succs : List BlockId} {old new : BlockId} {b : Block} {u : Inst}
    (hu : u ∈ (b.redirectIn succs old new).insts) : ∃ i ∈ b.insts, u.core = i.core ∧
      (u.isPHI = true → ∀ p ∈ u.incoming, p = new ∨ p ∈ i.incoming ∧ (b.id ∈ succs → p ≠ old)) := by
  unfold Block.redirectIn at hu
  split at hu
  · obtain ⟨i, hi, rfl⟩ := List.mem_map.mp hu
    refine ⟨i, hi, ?_, ?_⟩
    · split <;> rfl
    · intro hphi p hp
      split at hp
      · obtain ⟨q, hq, rfl⟩ := List.mem_map.mp hp
        split
        · exact .inl rfl
        · next hne => exact .inr ⟨hq, fun _ => hne⟩
      · next hno =>
        rw [if_neg hno] at hphi
        exact absurd hphi hno
  · next hno => exact ⟨u, hu, rfl, fun _ p hp => .inr ⟨hp, fun h => absurd h hno⟩⟩

theorem cutBlock_ids {M : Module} (hM : M.Ids) (old : BlockId) (pt : InstId) :
    ((M.cutBlock old pt).blocks.map Block.id).Nodup := by
  have h := (splitBlock_ids hM old pt).blocks_nodup
  rw [Module.splitBlock, mapIn_blocks, List.map_map] at h
  refine List.Nodup.of_map (fun n => n) ?_
  rw [List.map_id']
  convert h using 1
  apply List.map_congr_left
  intro b _
  simp only [Function.comp_apply]
  split <;> rfl

/- The blocks after a split in front of an instruction that is no PHI and no pad. -/
theorem splitBlock_exact {M : Module} (hM : M.Ids) {b : Block} (hb : b ∈ M.blocks) {xs ys : List Inst}
    {i : Inst} (hsplit : b.insts = xs ++ i :: ys) (hphi : i.isPHI = false) (hpad : i.op.isEHPad = false)
    (c : Block) : c ∈ (M.splitBlock b.id i.id).1.blocks ↔
      ∃ c₀, c = c₀.redirectIn b.succs b.id M.nextId ∧ ((c₀ ∈ M.blocks ∧ c₀.id ≠ b.id) ∨
        c₀ = { b with insts := xs ++ [Inst.uncondBr M.nextId M.nextId] } ∨ c₀ = ⟨M.nextId, i :: ys, false⟩) := by
  have hk := splitIndex_eq hsplit (block_insts_nodup hM hb) hphi hpad
  -- the blocks of the bare cut
  have hcut : ∀ c₀, c₀ ∈ (M.cutBlock b.id i.id).blocks ↔ ((c₀ ∈ M.blocks ∧ c₀.id ≠ b.id) ∨
      c₀ = { b with insts := xs ++ [Inst.uncondBr M.nextId M.nextId] } ∨ c₀ = ⟨M.nextId, i :: ys, false⟩) := by
    intro c₀
    have htwo : b.splitAt (b.splitIndex i.id) M.nextId =
        [{ b with insts := xs ++ [Inst.uncondBr M.nextId M.nextId] }, ⟨M.nextId, i :: ys, false⟩] := by
      rw [hk, Block.splitAt, hsplit, List.take_left, List.drop_left]
    rw [cutBlock_blocks, List.mem_flatMap]
    constructor
    · rintro ⟨x, hx, hc⟩
      unfold Block.cut at hc
      split at hc
      · next he =>
        obtain rfl := List.inj_on_of_nodup_map hM.blocks_nodup hx hb he
        rw [htwo] at hc
        rcases List.mem_cons.mp hc with hc | hc
        · exact .inr (.inl hc)
        · exact .inr (.inr (List.mem_singleton.mp hc))
      · next hne =>
        obtain rfl := List.mem_singleton.mp hc
        exact .inl ⟨hx, hne⟩
    · rintro (⟨hx, hne⟩ | hc)
      · refine ⟨c₀, hx, ?_⟩
        rw [Block.cut, if_neg hne]
        exact List.mem_singleton_self _
      · refine ⟨b, hb, ?_⟩
        rw [Block.cut, if_pos rfl, htwo]
        rcases hc with hc | hc
        · exact List.mem_cons.mpr (.inl hc)
        · exact List.mem_cons_of_mem _ (List.mem_singleton.mpr hc)
  -- the successors of the tail are those of the block
  have htail : (((M.cutBlock b.id i.id).block? M.nextId).map Block.succs).getD [] = b.succs := by
    have hmem := (hcut ⟨M.nextId, i :: ys, false⟩).mpr (.inr (.inr rfl))
    rw [block?_of_nodup (cutBlock_ids hM b.id i.id) hmem, Option.map_some, Option.getD_some]
    simp only [Block.succs, Block.terminator?, hsplit, List.getLast?_append_cons]
  have hblocks : (M.splitBlock b.id i.id).1.blocks =
      (M.cutBlock b.id i.id).blocks.map (Block.redirectIn b.succs b.id M.nextId) := by
    rw [Module.splitBlock, mapIn_blocks, htail]
    rfl
  rw [hblocks, List.mem_map]
  constructor
  · rintro ⟨c₀, hc₀, rfl⟩
    exact ⟨c₀, rfl, (hcut c₀).mp hc₀⟩
  · rintro ⟨c₀, rfl, hc₀⟩
    exact ⟨c₀, (hcut c₀).mpr hc₀, rfl⟩

/- A split leaves no terminator in front of the end of a block. -/
theorem splitBlock_last {M : Module} (hM : M.Ids) {b : Block} (hb : b ∈ M.blocks) {xs ys : List Inst}
    {i : Inst} (hsplit : b.insts = xs ++ i :: ys) (hphi : i.isPHI = false) (hpad : i.op.isEHPad = false)
    (hlast : ∀ c ∈ M.blocks, ∀ j ∈ c.insts.dropLast, j.op.isTerminator = false) :
    ∀ c ∈ (M.splitBlock b.id i.id).1.blocks, ∀ j ∈ c.insts.dropLast, j.op.isTerminator = false := by
  intro c hc j hj
  obtain ⟨c₀, rfl, hc₀⟩ := (splitBlock_exact hM hb hsplit hphi hpad c).mp hc
  obtain ⟨u, hu, huj⟩ := mem_of_core (dropLast_core (redirectIn_core b.succs b.id M.nextId c₀)).symm hj
  have hdrop : b.insts.dropLast = xs ++ (i :: ys).dropLast := by
    rw [hsplit, List.dropLast_append_of_ne_nil (List.cons_ne_nil i ys)]
  rw [← op_of_core huj]
  rcases hc₀ with ⟨hm, -⟩ | rfl | rfl
  · exact hlast c₀ hm u hu
  · rw [List.dropLast_concat] at hu
    exact hlast b hb u (hdrop ▸ List.mem_append_left _ hu)
  · exact hlast b hb u (hdrop ▸ List.mem_append_right _ hu)

end Split

section Returns

/- What a block of the region is once its return is split off. -/
inductive ReturnSplit (lo : Nat) (b : Block) : Block → Prop where
  | keep : (∀ ri, b.terminator? = some ri → ri.op ≠ .ret) → ReturnSplit lo b b
  | split (xs : List Inst) (ri : Inst) (n : Nat) : b.insts = xs ++ [ri] → ri.op = .ret → lo ≤ n →
      ReturnSplit lo b { b with insts := xs ++ [Inst.uncondBr n n] }

theorem ReturnSplit.mono {lo lo' : Nat} {b c : Block} (h : ReturnSplit lo b c) (hle : lo' ≤ lo) :
    ReturnSplit lo' b c := by
  cases h with
  | keep hno => exact .keep hno
  | split xs ri n hxs hop hn => exact .split xs ri n hxs hop (Nat.le_trans hle hn)

/- One round splits the return of its block off and leaves the others alone. -/
theorem splitReturnBlock_exact {M : Module} (hM : M.WF) (hret : ∀ i ∈ M.insts, i.op = .ret → i.succs = [])
    (a : BlockId) : M.nextId ≤ (splitReturnBlock M a).nextId ∧
      (∀ i ∈ (splitReturnBlock M a).insts, i.op = .ret → i.succs = []) ∧
      (∀ b ∈ M.blocks, b.id ≠ a → b ∈ (splitReturnBlock M a).blocks) ∧
      ∀ b ∈ M.blocks, b.id = a → ∃ c ∈ (splitReturnBlock M a).blocks, c.id = a ∧ ReturnSplit M.nextId b c := by
  unfold splitReturnBlock
  cases hri : (M.block? a).bind Block.terminator? with
  | none =>
    refine ⟨Nat.le_refl _, hret, fun b hb _ => hb, ?_⟩
    rintro b hb rfl
    refine ⟨b, hb, rfl, .keep fun ri hlast => ?_⟩
    rw [block?_mem hM.toIds hb, Option.bind_some, hlast] at hri
    cases hri
  | some ri =>
    dsimp only
    split
    · next hop =>
      obtain ⟨x, hx, hlast⟩ := Option.bind_eq_some_iff.mp hri
      obtain ⟨hxm, rfl⟩ := block?_some hx
      have hmem : ri ∈ x.insts := List.mem_of_getLast? hlast
      have hphi : ri.isPHI = false := by simp [Inst.isPHI, hop]
      have hpad : ri.op.isEHPad = false := by rw [hop]; rfl
      have hsplit : x.insts = x.insts.dropLast ++ ri :: [] := by
        obtain ⟨xs, hxs⟩ := List.getLast?_eq_some_iff.mp hlast
        rw [hxs, List.dropLast_concat]
      have hno : x.succs = [] := by
        have hlast' : x.terminator? = some ri := hlast
        rw [Block.succs, hlast', Option.map_some, Option.getD_some]
        exact hret ri (List.mem_flatMap.mpr ⟨x, hxm, hmem⟩) hop
      have hex := splitBlock_exact hM.toIds hxm hsplit hphi hpad
      simp only [hno, redirectIn_nil] at hex
      refine ⟨Nat.le_succ _, splitBlock_ret hret x.id ri.id,
        fun b hb hne => (hex b).mpr ⟨b, rfl, .inl ⟨hb, hne⟩⟩, ?_⟩
      intro b hb he
      obtain rfl := List.inj_on_of_nodup_map hM.blocks_nodup hb hxm he
      exact ⟨_, (hex _).mpr ⟨_, rfl, .inr (.inl rfl)⟩, rfl, .split _ ri _ hsplit hop (Nat.le_refl _)⟩
    · next hop =>
      refine ⟨Nat.le_refl _, hret, fun b hb _ => hb, ?_⟩
      rintro b hb rfl
      refine ⟨b, hb, rfl, .keep fun r hlast => ?_⟩
      rw [block?_mem hM.toIds hb, Option.bind_some, hlast] at hri
      obtain rfl := Option.some.inj hri
      exact hop

/- Every block of the region stays, without its return. -/
theorem splitReturnBlocks_exact {M : Module} (hM : M.WF) (hret : ∀ i ∈ M.insts, i.op = .ret → i.succs = [])
    (blocks : SetVector BlockId) : ∀ b ∈ M.blocks, ∃ c ∈ (splitReturnBlocks blocks M).blocks, c.id = b.id ∧
      (b.id ∈ blocks → ReturnSplit M.nextId b c) ∧ (b.id ∉ blocks → c = b) := by
  have hrun := foldl_run (f := splitReturnBlock) (P := fun pre N => N.WF ∧ M.nextId ≤ N.nextId ∧
    (∀ i ∈ N.insts, i.op = .ret → i.succs = []) ∧ ∀ b ∈ M.blocks, ∃ c ∈ N.blocks, c.id = b.id ∧
      (b.id ∈ pre → ReturnSplit M.nextId b c) ∧ (b.id ∉ pre → c = b)) blocks.elems (s := M) ?_ ?_
  · exact hrun.2.2.2
  · rintro pre a post N hsplit ⟨hN, hle, hr, hblocks⟩
    obtain ⟨hle', hr', hother, hthis⟩ := splitReturnBlock_exact hN hr a
    refine ⟨(splitReturnBlock_from hN a).1, Nat.le_trans hle hle', hr', fun b hb => ?_⟩
    obtain ⟨c, hc, hid, hin, hout⟩ := hblocks b hb
    have hnd := blocks.nodup
    rw [hsplit, List.nodup_append] at hnd
    by_cases hba : b.id = a
    · -- no block is split twice
      have hpre : b.id ∉ pre := fun hm => hnd.2.2 b.id hm a (List.mem_cons_self ..) hba
      obtain rfl := hout hpre
      obtain ⟨d, hd, hda, hrs⟩ := hthis c hc hba
      refine ⟨d, hd, hda.trans hba.symm, fun _ => hrs.mono hle, fun hno => ?_⟩
      exact absurd (List.mem_append_right _ (List.mem_singleton.mpr hba)) hno
    · refine ⟨c, hother c hc (hid ▸ hba), hid, fun hm => hin ?_, fun hno => hout fun hm => hno ?_⟩
      · rcases List.mem_append.mp hm with hm | hm
        · exact hm
        · exact absurd (List.mem_singleton.mp hm) hba
      · exact List.mem_append_left _ hm
  · exact ⟨hM, Nat.le_refl _, hret, fun b hb => ⟨b, hb, rfl, fun h => absurd h List.not_mem_nil, fun _ => rfl⟩⟩

end Returns

section SameInsts
variable {M N : Module}

/- The old instructions are all there, and what is new has a new number. -/
structure SameInsts (M N : Module) : Prop where
  back : ∀ u ∈ N.insts, (∃ i ∈ M.insts, u.core = i.core) ∨ M.nextId ≤ u.id
  forth : ∀ i ∈ M.insts, ∃ u ∈ N.insts, u.core = i.core
  le : M.nextId ≤ N.nextId

theorem SameInsts.refl (M : Module) : SameInsts M M :=
  ⟨fun u hu => .inl ⟨u, hu, rfl⟩, fun i hi => ⟨i, hi, rfl⟩, Nat.le_refl _⟩

theorem SameInsts.trans {K : Module} (h : SameInsts M N) (h' : SameInsts N K) : SameInsts M K := by
  refine ⟨fun u hu => ?_, fun i hi => ?_, Nat.le_trans h.le h'.le⟩
  · rcases h'.back u hu with ⟨j, hj, huj⟩ | hge
    · rcases h.back j hj with ⟨i, hi, hji⟩ | hge
      · exact .inl ⟨i, hi, huj.trans hji⟩
      · exact .inr (id_of_core huj ▸ hge)
    · exact .inr (Nat.le_trans h.le hge)
  · obtain ⟨j, hj, hji⟩ := h.forth i hi
    obtain ⟨u, hu, huj⟩ := h'.forth j hj
    exact ⟨u, hu, huj.trans hji⟩

theorem splitBlock_sameInsts (hM : M.Ids) {b : Block} (hb : b ∈ M.blocks) (pt : InstId) :
    SameInsts M (M.splitBlock b.id pt).1 := by
  refine ⟨fun u hu => ?_, fun i hi => ?_, Nat.le_succ _⟩
  · rcases splitBlock_insts M b.id pt u hu with h | h
    · exact .inl h
    · have hid : u.id = M.nextId := id_of_core (show u.core = (Inst.uncondBr M.nextId M.nextId).core from h)
      exact .inr (Nat.le_of_eq hid.symm)
  · -- the number is still there, on the same instruction
    have hm : i.id ∈ (M.splitBlock b.id pt).1.insts.map Inst.id :=
      (splitBlock_perm hM hb pt).2.mem_iff.mpr (List.mem_cons_of_mem _ (List.mem_map_of_mem hi))
    obtain ⟨u, hu, hid⟩ := List.mem_map.mp hm
    have hlt := hM.insts_lt i hi
    rcases splitBlock_insts M b.id pt u hu with ⟨j, hj, huj⟩ | h
    · obtain rfl := List.inj_on_of_nodup_map hM.insts_nodup hj hi ((id_of_core huj).symm.trans hid)
      exact ⟨u, hu, huj⟩
    · have hnew : u.id = M.nextId := id_of_core (show u.core = (Inst.uncondBr M.nextId M.nextId).core from h)
      omega

theorem splitReturnBlocks_sameInsts (hM : M.WF) (blocks : SetVector BlockId) :
    SameInsts M (splitReturnBlocks blocks M) := by
  refine (foldl_preserves (f := splitReturnBlock) (P := fun N => N.WF ∧ SameInsts M N) blocks.elems ?_
    ⟨hM, .refl M⟩).2
  rintro b N - ⟨hN, h⟩
  refine ⟨(splitReturnBlock_from hN b).1, h.trans ?_⟩
  unfold splitReturnBlock
  split
  · next ri hri =>
    split
    · obtain ⟨x, hx, -⟩ := Option.bind_eq_some_iff.mp hri
      obtain ⟨hxm, rfl⟩ := block?_some hx
      exact splitBlock_sameInsts hN.toIds hxm ri.id
    · exact .refl N
  · exact .refl N

/- Old instructions are found as before. -/
theorem SameInsts.inst? (h : SameInsts M N) (hM : M.Ids) (hN : N.Ids) {j : InstId} (hj : M.nextId > j) :
    (N.inst? j).map Inst.core = (M.inst? j).map Inst.core := by
  cases hu : N.inst? j with
  | some u =>
    have hid : u.id = j := inst?_id hu
    rcases h.back u (inst?_mem hu) with ⟨i, hi, hui⟩ | hge
    · have hii : i.id = j := (id_of_core hui).symm.trans hid
      rw [← hii, inst?_of_mem hM hi, Option.map_some, Option.map_some, hui]
    · omega
  | none =>
    cases hi : M.inst? j with
    | none => rfl
    | some i =>
      obtain ⟨u, hum, hui⟩ := h.forth i (inst?_mem hi)
      have hid : u.id = j := (id_of_core hui).trans (inst?_id hi)
      rw [← hid, inst?_of_mem hN hum] at hu
      cases hu

theorem getPointerOperand_core {u i : Inst} (h : u.core = i.core) : getPointerOperand u = getPointerOperand i := by
  simp only [getPointerOperand, op_of_core h, operands_of_core h]

/- The GEP of an access is the old one. -/
theorem SameInsts.accessGEP (h : SameInsts M N) (hM : M.WF) (hN : N.Ids) {a : InstId} (ha : M.nextId > a) :
    (accessGEP N a).map Inst.core = (accessGEP M a).map Inst.core := by
  have hfind := h.inst? hM.toIds hN ha
  unfold Atrox.accessGEP
  cases hi : M.inst? a with
  | none =>
    rw [hi, Option.map_none, Option.map_eq_none_iff] at hfind
    rw [hfind]
    rfl
  | some i =>
    rw [hi] at hfind
    obtain ⟨u, hu, hui⟩ := Option.map_eq_some_iff.mp hfind
    rw [hu]
    simp only [bind, Option.bind_some, getPointerOperand_core hui]
    cases hp : getPointerOperand i with
    | none => rfl
    | some p =>
      cases p with
      | inst g t =>
        have hlt := hM.operands_lt i (inst?_mem hi) g t (getPointerOperand_mem hp)
        have hgfind := h.inst? hM.toIds hN hlt
        simp only [Option.bind_some]
        cases hg : M.inst? g with
        | none =>
          rw [hg, Option.map_none, Option.map_eq_none_iff] at hgfind
          rw [hgfind]
        | some gep =>
          rw [hg] at hgfind
          obtain ⟨gep', hg', hgg⟩ := Option.map_eq_some_iff.mp hgfind
          have hop : gep'.op = gep.op := op_of_core hgg
          rw [hg']
          simp only [Option.bind_some, hop]
          split
          · rw [Option.map_some, Option.map_some, hgg]
          · rfl
      | _ => rfl

/- A GEP is flattened when it was before. -/
theorem SameInsts.flattens (h : SameInsts M N) (hM : M.WF) (hN : N.Ids) {accesses : List InstId}
    (hacc : ∀ a ∈ accesses, M.nextId > a) {u i : Inst} (hu : u ∈ N.insts) (hi : i ∈ M.insts)
    (hui : u.core = i.core) : flattens N accesses u = flattens M accesses i := by
  have hops : u.operands = i.operands := operands_of_core hui
  have hdim : dimensions u = dimensions i := by simp only [dimensions, gepPointer, hops]
  unfold Atrox.flattens
  rw [hdim]
  congr 1
  rw [Bool.eq_iff_iff, List.any_eq_true, List.any_eq_true]
  refine exists_congr fun a => and_congr_right fun ha => ?_
  have hgep := h.accessGEP hM hN (hacc a ha)
  rw [decide_eq_true_eq, decide_eq_true_eq]
  constructor
  · intro hN'
    rw [hN', Option.map_some] at hgep
    obtain ⟨j, hj, hji⟩ := Option.map_eq_some_iff.mp hgep.symm
    obtain rfl := inst_unique hM.toIds (accessGEP_some hj).1 hi (id_of_core (hji.trans hui))
    exact hj
  · intro hM'
    rw [hM', Option.map_some] at hgep
    obtain ⟨j, hj, hji⟩ := Option.map_eq_some_iff.mp hgep
    obtain rfl := inst_unique hN (accessGEP_some hj).1 hu (id_of_core (hji.trans hui.symm))
    exact hj

end SameInsts

end Atrox
