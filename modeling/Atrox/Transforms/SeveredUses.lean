import Atrox.Transforms.SplitBlocks

/-!
# What a severed region uses

Every instruction of the region after severing comes from one before it, with its operands
renamed, or is a PHI or a branch put in.
-/

namespace Atrox
open IR Lib

/- What the LLVM verifier promises of uses, and of terminators. -/
structure ValidUses (M : Module) : Prop where
  last : ∀ b ∈ M.blocks, ∀ i ∈ b.insts.dropLast, i.op.isTerminator = false
  use : ∀ i ∈ M.insts, ∀ v ∈ i.operands, ∀ x ∈ M.insts, v.isInst x.id = true → v = x.val ∧ x.op ≠ .ret

theorem ValidUses.of_inst {M : Module} (h : ValidUses M) {i x : Inst} (hi : i ∈ M.insts) (hx : x ∈ M.insts)
    {t : Ty} (hv : Value.inst x.id t ∈ i.operands) : x.ty = t ∧ x.op ≠ .ret := by
  obtain ⟨he, hop⟩ := h.use i hi _ hv x hx (by simp [Value.isInst])
  refine ⟨?_, hop⟩
  injection he with _ hty
  exact hty.symm

/- Only the first block has predecessors outside the region. -/
def SingleEntry (M : Module) (blocks : SetVector BlockId) (header : BlockId) : Prop :=
  ∀ b ∈ M.blocks, b.id ∈ blocks → b.id ≠ header → ∀ p ∈ M.blocks, b.id ∈ p.succs → p.id ∈ blocks

/- Where an instruction of a severed region comes from. -/
inductive Origin (M : Module) (is lost : List Inst) (ρ : Value → Value) (u : Inst) : Prop where
  | kept (i : Inst) : i ∈ is → i ∉ lost → u.head = i.head → u.operands = i.operands.map ρ →
      Origin M is lost ρ u
  | phi (pn : Inst) : pn ∈ lost → M.nextId ≤ u.id → u.op = .phi → ρ pn.val = u.val →
      (∀ v ∈ u.operands, v = pn.val ∨ ∃ w ∈ pn.operands, v = ρ w) → Origin M is lost ρ u
  | branch : M.nextId ≤ u.id → u.op = .br → u.operands = [] → Origin M is lost ρ u

/- The region `bs` of `N` has the instructions `is` of `M`: the PHIs of `lost` stay behind, and `ρ`
renames those of them in `done`. -/
structure Severing (M N : Module) (is : List Inst) (bs : List BlockId) (header : BlockId)
    (lost : List Inst) (done : List InstId) (ρ : Value → Value) : Prop extends SeverShape M N where
  origin : ∀ u ∈ N.regionInsts bs, Origin M is lost ρ u
  kept : ∀ i ∈ is, i ∉ lost → ∃ u ∈ N.regionInsts bs, u.head = i.head ∧ u.operands = i.operands.map ρ
  fixed : ∀ v, (∀ pn ∈ lost, pn.id ∈ done → v ≠ pn.val) → ρ v = v
  fresh : ∀ pn ∈ lost, pn.id ∈ done → ∃ u ∈ N.regionInsts bs, M.nextId ≤ u.id ∧ ρ pn.val = u.val ∧
    u.op = .phi ∧ pn.val ∈ u.operands
  left : ∀ pn ∈ lost, pn.id ∉ done → ∃ u ∈ N.insts, u.head = pn.head ∧ u.operands = pn.operands.map ρ
  incoming : ∀ b ∈ N.blocks, b.id ∈ bs → b.id ≠ header → ∀ i ∈ b.insts, i.isPHI = true →
    ∀ p ∈ i.incoming, p ∈ bs
  last : ∀ b ∈ N.blocks, b.id ∈ bs → ∀ i ∈ b.insts.dropLast, i.op.isTerminator = false

theorem head_val {i j : Inst} (h : i.head = j.head) : i.val = j.val := by
  rw [Inst.val, Inst.val, id_of_head h, ty_of_head h]

section Unsevered
variable {M : Module}

/- Before anything is severed. -/
theorem Severing.refl (hM : M.WF) (hv : Verified M) (hu : ValidUses M) (blocks : SetVector BlockId)
    {header : BlockId} (hentry : SingleEntry M blocks header) :
    Severing M M (M.regionInsts blocks.elems) blocks.elems header [] [] id where
  toSeverShape := .refl hM hv
  origin := fun u hu => .kept u hu List.not_mem_nil rfl (List.map_id _).symm
  kept := fun i hi _ => ⟨i, hi, rfl, (List.map_id _).symm⟩
  fixed := fun _ _ => rfl
  fresh := fun _ hpn => absurd hpn List.not_mem_nil
  left := fun _ hpn => absurd hpn List.not_mem_nil
  incoming := by
    intro b hb hbs hne i hi hphi p hp
    obtain ⟨q, hq, rfl, hsucc⟩ := hv.incoming b hb i hi hphi p hp
    exact hentry b hb hbs hne q hq hsucc
  last := fun b hb _ => hu.last b hb

/- A block of the region after the cut is the tail of the header or another block of the region. -/
theorem splitBlock_region (hM : M.WF) {blocks : SetVector BlockId} {hb : Block} (hbm : hb ∈ M.blocks)
    {xs rest : List Inst} {first : Inst} (hsplit : hb.insts = xs ++ first :: rest) (hphi : first.isPHI = false)
    (hpad : first.op.isEHPad = false) {c : Block} (hc : c ∈ (M.splitBlock hb.id first.id).1.blocks)
    (hcs : c.id ∈ ((blocks.remove hb.id).insert M.nextId).elems) :
    ∃ c₀, c = c₀.redirectIn hb.succs hb.id M.nextId ∧
      ((c₀ ∈ M.blocks ∧ c₀.id ≠ hb.id ∧ c₀.id ∈ blocks) ∨ c₀ = ⟨M.nextId, first :: rest, false⟩) := by
  have hnew : ∀ b ∈ M.blocks, b.id ≠ M.nextId := fun b hb => Nat.ne_of_lt (hM.blocks_lt b hb)
  rw [← SetVector.mem_def, SetVector.mem_insert, SetVector.mem_remove] at hcs
  obtain ⟨c₀, rfl, h | rfl | rfl⟩ := (splitBlock_exact hM.toIds hbm hsplit hphi hpad c).mp hc
  · refine ⟨c₀, rfl, .inl ⟨h.1, h.2, ?_⟩⟩
    rw [redirectIn_id] at hcs
    rcases hcs with h' | h'
    · exact h'.2
    · exact absurd h' (hnew c₀ h.1)
  · rw [redirectIn_id] at hcs
    rcases hcs with h' | h'
    · exact absurd rfl h'.1
    · exact absurd h' (hnew hb hbm)
  · exact ⟨_, rfl, .inr rfl⟩

/- An instruction of one of the pieces is in the cut function, up to its successors. -/
theorem splitBlock_kept (hM : M.WF) {hb : Block} (hbm : hb ∈ M.blocks) {xs rest : List Inst} {first : Inst}
    (hsplit : hb.insts = xs ++ first :: rest) (hphi : first.isPHI = false) (hpad : first.op.isEHPad = false)
    {c : Block} (hc : (c ∈ M.blocks ∧ c.id ≠ hb.id) ∨
      c = { hb with insts := xs ++ [Inst.uncondBr M.nextId M.nextId] } ∨ c = ⟨M.nextId, first :: rest, false⟩)
    {i : Inst} (hi : i ∈ c.insts) :
    ∃ b ∈ (M.splitBlock hb.id first.id).1.blocks, b.id = c.id ∧ ∃ u ∈ b.insts, u.core = i.core := by
  obtain ⟨u, hu, hui⟩ := mem_of_core (redirectIn_core hb.succs hb.id M.nextId c) hi
  exact ⟨_, (splitBlock_exact hM.toIds hbm hsplit hphi hpad _).mpr ⟨c, rfl, hc⟩, redirectIn_id .., u, hu, hui⟩

/- The header is cut behind its PHIs. -/
theorem Severing.split (hM : M.WF) (hv : Verified M) (hu : ValidUses M) {blocks : SetVector BlockId}
    {hb : Block} (hbm : hb ∈ M.blocks) (hin : hb.id ∈ blocks)
    (hentry : SingleEntry M blocks hb.id) {first : Inst} (hfirst : hb.insts[hb.firstNonPHI]? = some first)
    (hpad : first.op.isEHPad = false) :
    Severing M (M.splitBlock hb.id first.id).1 (M.regionInsts blocks.elems)
      ((blocks.remove hb.id).insert M.nextId).elems M.nextId hb.phis [] id := by
  obtain ⟨hmem, hphi, rest, hsplit⟩ := firstNonPHI_spec hfirst
  have hwf := splitBlock_wf hM hb.id first.id
  have hbs : ∀ n, n ∈ ((blocks.remove hb.id).insert M.nextId).elems ↔ (n ≠ hb.id ∧ n ∈ blocks) ∨ n = M.nextId := by
    intro n
    rw [← SetVector.mem_def, SetVector.mem_insert, SetVector.mem_remove]
  have hops : ∀ {u i : Inst}, u.core = i.core → u.operands = i.operands.map id := by
    intro u i h
    rw [operands_of_core h, List.map_id]
  -- instructions of the tail are no PHIs of the header
  have hnd := block_insts_nodup hM.toIds hbm
  rw [hsplit, List.map_append, List.nodup_append] at hnd
  have htail : ∀ i ∈ first :: rest, i ∉ hb.phis := fun i hi hp =>
    hnd.2.2 i.id (List.mem_map_of_mem hp) i.id (List.mem_map_of_mem hi) rfl
  refine ⟨(SeverShape.refl hM hv).splitBlock hbm hmem hphi hpad, ?_, ?_, fun _ _ => rfl, ?_, ?_, ?_, ?_⟩
  · intro u hu
    obtain ⟨c, hc, hcs, huc⟩ := (regionInsts_mem hwf.toIds).mp hu
    obtain ⟨c₀, rfl, hc₀⟩ := splitBlock_region hM hbm hsplit hphi hpad hc hcs
    obtain ⟨i, hi, hui, -⟩ := redirectIn_incoming huc
    rcases hc₀ with ⟨hm, hne, hb₀⟩ | rfl
    · refine .kept i ((regionInsts_mem hM.toIds).mpr ⟨c₀, hm, hb₀, hi⟩) (fun hp => hne ?_)
        (head_of_core hui) (hops hui)
      rw [block_unique hM.toIds hm hbm hi (List.takeWhile_subset _ hp)]
    · refine .kept i ((regionInsts_mem hM.toIds).mpr ⟨hb, hbm, hin, ?_⟩) (htail i hi) (head_of_core hui)
        (hops hui)
      rw [hsplit]
      exact List.mem_append_right _ hi
  · intro i hi hno
    obtain ⟨b, hb', hbs', hib⟩ := (regionInsts_mem hM.toIds).mp hi
    have hget : ∀ {c : Block}, ((c ∈ M.blocks ∧ c.id ≠ hb.id) ∨
        c = { hb with insts := hb.phis ++ [Inst.uncondBr M.nextId M.nextId] } ∨
        c = ⟨M.nextId, first :: rest, false⟩) → c.id ∈ ((blocks.remove hb.id).insert M.nextId).elems →
        i ∈ c.insts → ∃ u ∈ (M.splitBlock hb.id first.id).1.regionInsts
          ((blocks.remove hb.id).insert M.nextId).elems, u.head = i.head ∧ u.operands = i.operands.map id := by
      intro c hc hid hic
      obtain ⟨b', hb', hbc, u, hu, hui⟩ := splitBlock_kept hM hbm hsplit hphi hpad hc hic
      exact ⟨u, (regionInsts_mem hwf.toIds).mpr ⟨b', hb', hbc ▸ hid, hu⟩, head_of_core hui, hops hui⟩
    by_cases he : b.id = hb.id
    · obtain rfl := List.inj_on_of_nodup_map hM.blocks_nodup hb' hbm he
      rw [hsplit] at hib
      rcases List.mem_append.mp hib with hp | hr
      · exact absurd hp hno
      · exact hget (.inr (.inr rfl)) ((hbs _).mpr (.inr rfl)) hr
    · exact hget (.inl ⟨hb', he⟩) ((hbs _).mpr (.inl ⟨he, hbs'⟩)) hib
  · intro pn _ hd
    exact absurd hd List.not_mem_nil
  · intro pn hpn _
    obtain ⟨b', hb', -, u, hu, hui⟩ := splitBlock_kept hM hbm hsplit hphi hpad (.inr (.inl rfl))
      (List.mem_append_left _ hpn)
    exact ⟨u, List.mem_flatMap.mpr ⟨b', hb', hu⟩, head_of_core hui, hops hui⟩
  · intro c hc hcs hne u hu huphi p hp
    obtain ⟨c₀, rfl, hc₀⟩ := splitBlock_region hM hbm hsplit hphi hpad hc hcs
    rcases hc₀ with ⟨hm, hne₀, hb₀⟩ | rfl
    · obtain ⟨i, hi, hui, hinc⟩ := redirectIn_incoming hu
      have hiphi : i.isPHI = true := (isPHI_of_core hui).symm.trans huphi
      rcases hinc huphi p hp with rfl | ⟨hpi, hnot⟩
      · exact (hbs _).mpr (.inr rfl)
      · obtain ⟨q, hq, rfl, hsucc⟩ := hv.incoming c₀ hm i hi hiphi p hpi
        refine (hbs _).mpr (.inl ⟨fun he => ?_, hentry c₀ hm hb₀ hne₀ q hq hsucc⟩)
        -- an edge from the header has been redirected
        obtain rfl := List.inj_on_of_nodup_map hM.blocks_nodup hq hbm he
        exact hnot hsucc rfl
    · rw [redirectIn_id] at hne
      exact absurd rfl hne
  · intro c hc _
    exact splitBlock_last hM.toIds hbm hsplit hphi hpad hu.last c hc

end Unsevered

section Rewrite
variable {M N N' : Module} {is : List Inst} {bs : List BlockId} {header : BlockId} {lost : List Inst}
  {done : List InstId} {ρ : Value → Value}

theorem Rewrites.region {front : Block → List Inst} {g : Block → Inst → Inst} (hr : Rewrites N N' front g)
    (hN' : N'.Ids) {u : Inst} : u ∈ N'.regionInsts bs ↔
      ∃ b ∈ N.blocks, b.id ∈ bs ∧ (u ∈ front b ∨ ∃ i ∈ b.insts, u = g b i) := by
  rw [regionInsts_mem hN']
  constructor
  · rintro ⟨c, hc, hcs, hu⟩
    obtain ⟨b, hb, rfl⟩ := hr.mem hc
    refine ⟨b, hb, hcs, ?_⟩
    rcases List.mem_append.mp hu with hu | hu
    · exact .inl hu
    · obtain ⟨i, hi, rfl⟩ := List.mem_map.mp hu
      exact .inr ⟨i, hi, rfl⟩
  · rintro ⟨b, hb, hbs, hu⟩
    refine ⟨{ b with insts := front b ++ b.insts.map (g b) }, ?_, hbs, ?_⟩
    · rw [hr.blocks]
      exact List.mem_map_of_mem hb
    · rcases hu with hu | ⟨i, hi, rfl⟩
      · exact List.mem_append_left _ hu
      · exact List.mem_append_right _ (List.mem_map_of_mem hi)

theorem Rewrites.insts_mem {front : Block → List Inst} {g : Block → Inst → Inst} (hr : Rewrites N N' front g)
    {b : Block} (hb : b ∈ N.blocks) {i : Inst} (hi : i ∈ b.insts) : g b i ∈ N'.insts := by
  refine List.mem_flatMap.mpr ⟨{ b with insts := front b ++ b.insts.map (g b) }, ?_,
    List.mem_append_right _ (List.mem_map_of_mem hi)⟩
  rw [hr.blocks]
  exact List.mem_map_of_mem hb

/- The last instruction of a block stays the last. -/
theorem Rewrites.last {front : Block → List Inst} {g : Block → Inst → Inst} (hr : Rewrites N N' front g)
    {b : Block} (hlast : ∀ i ∈ b.insts.dropLast, i.op.isTerminator = false) :
    ∀ u ∈ (front b ++ b.insts.map (g b)).dropLast, u.op.isTerminator = false := by
  intro u hu
  have hphi : ∀ i ∈ front b, i.op.isTerminator = false := fun i hi => by
    rw [hr.phi b i hi]
    rfl
  by_cases hnil : b.insts = []
  · rw [hnil, List.map_nil, List.append_nil] at hu
    exact hphi u (List.dropLast_subset _ hu)
  · have hne : b.insts.map (g b) ≠ [] := by simpa using hnil
    rw [List.dropLast_append_of_ne_nil hne, ← List.map_dropLast] at hu
    rcases List.mem_append.mp hu with hu | hu
    · exact hphi u hu
    · obtain ⟨i, hi, rfl⟩ := List.mem_map.mp hu
      rw [op_of_head (hr.head b i)]
      exact hlast i hi

/- What stands for a PHI in the new header keeps its value and the use of the PHI. -/
theorem kept_value {τ : Value → Value} (hnew : ∀ j t, M.nextId ≤ j → τ (.inst j t) = .inst j t)
    (hmoved : ∀ v, ρ v ≠ v → τ v = v) {pn u : Inst} (hpn : pn.id < M.nextId) (hu : M.nextId ≤ u.id)
    (hρ : ρ pn.val = u.val) : τ (ρ pn.val) = u.val ∧ τ pn.val = pn.val := by
  constructor
  · rw [hρ]
    exact hnew _ _ hu
  · refine hmoved _ fun he => ?_
    rw [hρ] at he
    have hid : u.id = pn.id := by injection he
    omega

/- An instruction whose operands are rewritten has the same origin. -/
theorem Origin.rewrite {i u : Inst} (h : Origin M is lost ρ i) {τ : Value → Value}
    (hnew : ∀ j t, M.nextId ≤ j → τ (.inst j t) = .inst j t) (hmoved : ∀ v, ρ v ≠ v → τ v = v)
    (hlost : ∀ pn ∈ lost, pn.id < M.nextId) (hhead : u.head = i.head) (hops : u.operands = i.operands.map τ) :
    Origin M is lost (fun v => τ (ρ v)) u := by
  cases h with
  | kept j hj hno hji hjops =>
    refine .kept j hj hno (hhead.trans hji) ?_
    rw [hops, hjops, List.map_map]
    rfl
  | phi pn hpn hge hop hρ huse =>
    obtain ⟨hval, hpv⟩ := kept_value hnew hmoved (hlost pn hpn) hge hρ
    refine .phi pn hpn (id_of_head hhead ▸ hge) ((op_of_head hhead).trans hop)
      (hval.trans (head_val hhead).symm) fun v hv => ?_
    rw [hops] at hv
    obtain ⟨w, hw, rfl⟩ := List.mem_map.mp hv
    rcases huse w hw with rfl | ⟨w', hw', rfl⟩
    · exact .inl hpv
    · exact .inr ⟨w', hw', rfl⟩
  | branch hge hop hnil =>
    refine .branch (id_of_head hhead ▸ hge) ((op_of_head hhead).trans hop) ?_
    rw [hops, hnil]
    rfl

/- What a rewriting does to operands, the origins follow. -/
theorem Severing.rewrite (h : Severing M N is bs header lost done ρ) {τ : Value → Value}
    {front : Block → List Inst} {g : Block → Inst → Inst} {done' : List InstId} (hr : Rewrites N N' front g)
    (hs : SeverShape M N') (hlost : ∀ pn ∈ lost, pn.id < M.nextId)
    (hops : ∀ b i, b.id ∈ bs → (g b i).operands = i.operands.map τ)
    (hinc : ∀ b i, b.id ∈ bs → (g b i).incoming = i.incoming)
    (hnew : ∀ j t, M.nextId ≤ j → τ (.inst j t) = .inst j t) (hmoved : ∀ v, ρ v ≠ v → τ v = v)
    (hfront : ∀ b ∈ N.blocks, b.id ∈ bs → ∀ u ∈ front b, b.id = header ∧ Origin M is lost (fun v => τ (ρ v)) u)
    (hfixed : ∀ v, (∀ pn ∈ lost, pn.id ∈ done' → v ≠ pn.val) → τ (ρ v) = v)
    (hfresh : ∀ pn ∈ lost, pn.id ∈ done' → pn.id ∈ done ∨ ∃ u ∈ N'.regionInsts bs, M.nextId ≤ u.id ∧
      τ (ρ pn.val) = u.val ∧ u.op = .phi ∧ pn.val ∈ u.operands)
    (hleft : ∀ pn ∈ lost, pn.id ∉ done' → ∃ u ∈ N'.insts, u.head = pn.head ∧
      u.operands = pn.operands.map fun v => τ (ρ v)) :
    Severing M N' is bs header lost done' fun v => τ (ρ v) := by
  have hreg : ∀ {u}, u ∈ N'.regionInsts bs ↔ ∃ b ∈ N.blocks, b.id ∈ bs ∧
      (u ∈ front b ∨ ∃ i ∈ b.insts, u = g b i) := hr.region hs.wf.toIds
  refine ⟨hs, ?_, ?_, hfixed, ?_, hleft, ?_, ?_⟩
  · intro u hu
    obtain ⟨b, hb, hbs, hu | ⟨i, hi, rfl⟩⟩ := hreg.mp hu
    · exact (hfront b hb hbs u hu).2
    · have horigin := h.origin i ((regionInsts_mem h.wf.toIds).mpr ⟨b, hb, hbs, hi⟩)
      exact horigin.rewrite hnew hmoved hlost (hr.head b i) (hops b i hbs)
  · intro i hi hno
    obtain ⟨u, hu, hui, huops⟩ := h.kept i hi hno
    obtain ⟨b, hb, hbs, hub⟩ := (regionInsts_mem h.wf.toIds).mp hu
    refine ⟨g b u, hreg.mpr ⟨b, hb, hbs, .inr ⟨u, hub, rfl⟩⟩, (hr.head b u).trans hui, ?_⟩
    rw [hops b u hbs, huops, List.map_map]
    rfl
  · intro pn hpn hd
    rcases hfresh pn hpn hd with hd | hu
    · obtain ⟨u, hu, hge, hρ, hop, huse⟩ := h.fresh pn hpn hd
      obtain ⟨b, hb, hbs, hub⟩ := (regionInsts_mem h.wf.toIds).mp hu
      obtain ⟨hval, hpv⟩ := kept_value hnew hmoved (hlost pn hpn) hge hρ
      have hhead := hr.head b u
      refine ⟨g b u, hreg.mpr ⟨b, hb, hbs, .inr ⟨u, hub, rfl⟩⟩, ?_, hval.trans (head_val hhead).symm, ?_, ?_⟩
      · rw [id_of_head hhead]
        exact hge
      · rw [op_of_head hhead]
        exact hop
      · rw [hops b u hbs]
        exact List.mem_map.mpr ⟨_, huse, hpv⟩
    · exact hu
  · intro c hc hcs hne u hu hphi p hp
    obtain ⟨b, hb, rfl⟩ := hr.mem hc
    rcases List.mem_append.mp hu with hu | hu
    · exact absurd (hfront b hb hcs u hu).1 hne
    · obtain ⟨i, hi, rfl⟩ := List.mem_map.mp hu
      rw [hinc b i hcs] at hp
      rw [isPHI_of_head (hr.head b i)] at hphi
      exact h.incoming b hb hcs hne i hi hphi p hp
  · intro c hc hcs
    obtain ⟨b, hb, rfl⟩ := hr.mem hc
    exact hr.last (h.last b hb hcs)

/- The latches branch to the new header. -/
theorem Severing.latches (h : Severing M N is bs header lost done ρ) (hlost : ∀ pn ∈ lost, pn.id < M.nextId)
    (latches : List BlockId) (src dst : BlockId) :
    Severing M (N.mapIn latches (Block.mapInsts (Inst.replaceSuccOfWith src dst))) is bs header lost done ρ := by
  have hr := latches_blocks N latches src dst
  refine h.rewrite (τ := id) hr (h.toSeverShape.latches latches src dst) hlost ?_ ?_ (fun _ _ _ => rfl) (fun _ _ => rfl)
    (fun b _ _ u hu => by cases hu) h.fixed (fun _ _ hd => .inl hd) ?_
  · intro b i _
    rw [List.map_id]
    split <;> rfl
  · intro b i _
    split <;> rfl
  · intro pn hpn hd
    obtain ⟨u, hu, hui, huops⟩ := h.left pn hpn hd
    obtain ⟨b, hb, hub⟩ := List.mem_flatMap.mp hu
    refine ⟨_, hr.insts_mem hb hub, ?_, ?_⟩
    · split
      · exact hui
      · exact hui
    · split
      · exact huops
      · exact huops

/- A PHI that is still to be severed, as it is now. -/
theorem Severing.inst?_left (h : Severing M N is bs header lost done ρ) {PN PN' : Inst} (hPN : PN ∈ lost)
    (hfirst : PN.id ∉ done) (hfind : N.inst? PN.id = some PN') :
    PN'.head = PN.head ∧ PN'.operands = PN.operands.map ρ := by
  obtain ⟨u, hu, hhead, hops⟩ := h.left PN hPN hfirst
  have hid : u.id = PN.id := id_of_head hhead
  obtain rfl : PN' = u := inst_unique h.wf.toIds (inst?_mem hfind) hu ((inst?_id hfind).trans hid.symm)
  exact ⟨hhead, hops⟩

/- A PHI that is left for a later round is rewritten as the other users are. -/
theorem Severing.left_after {PN' : Inst} {new : Value} {oldPred : BlockId} {kept : List (BlockId × Value)}
    {front : Block → List Inst} (h : Severing M N is bs header lost done ρ)
    (hr : Rewrites N N' front (severInst PN' new oldPred kept)) {pn : Inst} (hpn : pn ∈ lost)
    (hne : pn.id ≠ PN'.id) (hd : pn.id ∉ done) :
    ∃ u ∈ N'.insts, u.head = pn.head ∧
      u.operands = pn.operands.map fun v => if ρ v = PN'.val then new else ρ v := by
  obtain ⟨x, hx, hxh, hxops⟩ := h.left pn hpn hd
  obtain ⟨b, hb, hxb⟩ := List.mem_flatMap.mp hx
  have hxid : x.id = pn.id := id_of_head hxh
  have hx' : severInst PN' new oldPred kept b x = x.replaceUsesOfWith PN'.val new :=
    severInst_other fun he => hne (hxid.symm.trans he.2)
  refine ⟨_, hr.insts_mem hb hxb, ?_, ?_⟩
  · rw [hx']
    exact hxh
  · rw [hx']
    simp only [Inst.replaceUsesOfWith, hxops, List.map_map]
    rfl

/- One round over the PHIs of the old header. -/
theorem Severing.severPHI (h : Severing M N is bs header lost done ρ)
    (hlost : ∀ pn ∈ lost, pn.id < M.nextId) {oldPred : BlockId} (hold : oldPred ∉ bs) (hheader : header ∈ bs)
    (hexist : ∃ b ∈ N.blocks, b.id = header) {PN : Inst} (hPN : PN ∈ lost) (hfirst : PN.id ∉ done)
    (hinj : ∀ pn ∈ lost, pn.id = PN.id → pn = PN) {ce ce' : CodeExtractor}
    (hstep : severPHI oldPred header (ce, N) PN.id = some (ce', N')) :
    Severing M N' is bs header lost (done ++ [PN.id])
      fun v => if ρ v = PN.val then .inst N.nextId PN.ty else ρ v := by
  have hs := severPHI_shape h.toSeverShape hstep
  obtain ⟨PN', hfind, kept, moved, hedges, -, hr⟩ := severPHI_blocks hstep
  have hlt := hlost PN hPN
  have hle := h.le
  -- the PHI as it is now
  obtain ⟨hhead, huops⟩ := h.inst?_left hPN hfirst hfind
  have huid : PN'.id = PN.id := inst?_id hfind
  have hval : PN'.val = PN.val := head_val hhead
  have hty : PN'.ty = PN.ty := ty_of_head hhead
  rw [hval, hty] at hr hedges
  have hρPN : ρ PN.val = PN.val := h.fixed PN.val fun pn hpn hd he => hfirst (by
    have hid : PN.id = pn.id := by injection he
    rw [hid]
    exact hd)
  have hfreshPN : ∀ j t, M.nextId ≤ j → Value.inst j t ≠ PN.val := by
    intro j t hj he
    have hid : j = PN.id := by injection he
    omega
  have hgops : ∀ b i, b.id ∈ bs → severInst PN' (.inst N.nextId PN.ty) oldPred kept b i =
      i.replaceUsesOfWith PN.val (.inst N.nextId PN.ty) := by
    intro b i hb
    have hne : ¬(b.id = oldPred ∧ i.id = PN'.id) := fun he => hold (he.1 ▸ hb)
    rw [severInst_other hne, hval]
  have hmoved : ∀ e ∈ kept ++ moved, ∃ w ∈ PN.operands,
      e.2 = if ρ w = PN.val then .inst N.nextId PN.ty else ρ w := by
    intro e he
    obtain ⟨w, hw, hwe⟩ := List.mem_map.mp (hedges e he)
    rw [huops] at hw
    obtain ⟨w', hw', rfl⟩ := List.mem_map.mp hw
    exact ⟨w', hw', hwe.symm⟩
  refine h.rewrite (τ := fun v => if v = PN.val then .inst N.nextId PN.ty else v) hr hs hlost ?_ ?_ ?_ ?_ ?_
    ?_ ?_ ?_
  · intro b i hb
    rw [hgops b i hb]
    rfl
  · intro b i hb
    rw [hgops b i hb]
    rfl
  · intro j t hj
    exact if_neg (hfreshPN j t hj)
  · intro v hv
    refine if_neg fun he => hv ?_
    rw [he]
    exact hρPN
  · intro b _ _ x hx
    split at hx
    · next hb =>
      rw [List.mem_singleton.mp hx]
      refine ⟨hb, .phi PN hPN h.le rfl ?_ fun v hv => ?_⟩
      · simp only [hρPN, if_true]
        rfl
      · rcases List.mem_cons.mp hv with rfl | hv
        · exact .inl rfl
        · obtain ⟨e, he, rfl⟩ := List.mem_map.mp hv
          exact .inr (hmoved e (List.mem_append_right _ he))
    · cases hx
  · intro v hv
    have hne : v ≠ PN.val := hv PN hPN (List.mem_append_right _ (List.mem_singleton_self _))
    rw [h.fixed v fun pn hpn hd => hv pn hpn (List.mem_append_left _ hd)]
    exact if_neg hne
  · intro pn hpn hd
    rcases List.mem_append.mp hd with hd | hd
    · exact .inl hd
    · right
      obtain rfl := hinj pn hpn (List.mem_singleton.mp hd)
      obtain ⟨b, hb, hbid⟩ := hexist
      refine ⟨⟨N.nextId, .phi, pn.ty, pn.val :: moved.map Prod.snd, oldPred :: moved.map Prod.fst, []⟩,
        (hr.region hs.wf.toIds).mpr ⟨b, hb, hbid ▸ hheader, .inl ?_⟩, h.le, ?_, rfl,
        List.mem_cons_self ..⟩
      · rw [if_pos hbid]
        exact List.mem_singleton_self _
      · simp only [hρPN, if_true]
        rfl
  · intro pn hpn hd
    have hne : pn.id ≠ PN.id := fun he => hd (List.mem_append_right _ (List.mem_singleton.mpr he))
    have hafter := h.left_after hr hpn (huid ▸ hne) fun hd' => hd (List.mem_append_left _ hd')
    rw [hval] at hafter
    exact hafter

end Rewrite

section Sever
variable {M : Module}

/- The PHIs of the header that severing leaves in the old header. -/
def lostPHIs (M : Module) (blocks : SetVector BlockId) (header : Block) : List Inst :=
  if (severs M blocks header).isSome then header.phis else []

/- Those of them that get a PHI in the new header. -/
def renamedPHIs (M : Module) (blocks : SetVector BlockId) (header : Block) : List Inst :=
  if (severs M blocks header).getD 0 = 0 then [] else header.phis

theorem followRAUW_lookup {β : Type} {src dst v : Value} (m : AList fun _ : Value => β) (hv : v ≠ dst) :
    (followRAUW src dst m).lookup v = if v = src then none else m.lookup v := by
  unfold followRAUW
  by_cases hs : v = src
  · subst hs
    rw [if_pos rfl]
    split
    · assumption
    · split
      · exact AList.lookup_erase _ _
      · rw [AList.lookup_insert_ne hv]
        exact AList.lookup_erase _ _
  · rw [if_neg hs]
    split
    · rfl
    · split
      · exact AList.lookup_erase_ne hs
      · rw [AList.lookup_insert_ne hv]
        exact AList.lookup_erase_ne hs

theorem phis_ids {is js : List Inst} (h : is.map Inst.core = js.map Inst.core) :
    (is.takeWhile Inst.isPHI).map Inst.id = (js.takeWhile Inst.isPHI).map Inst.id := by
  have h' := congrArg (List.takeWhile Inst.isPHI) h
  rw [List.takeWhile_map, List.takeWhile_map] at h'
  exact ids_of_core h'

/- The PHIs of the old header after the split. -/
theorem splitBlock_phis (hM : M.WF) {hb oldPred : Block} (hbm : hb ∈ M.blocks) {first : Inst}
    (hfirst : hb.insts[hb.firstNonPHI]? = some first) (hpad : first.op.isEHPad = false)
    (hold : (M.splitBlock hb.id first.id).1.block? hb.id = some oldPred) :
    oldPred.phis.map Inst.id = hb.phis.map Inst.id := by
  obtain ⟨-, hphi, rest, hsplit⟩ := firstNonPHI_spec hfirst
  obtain ⟨hmem, hid⟩ := block?_some hold
  obtain ⟨c₀, rfl, hc₀⟩ := (splitBlock_exact hM.toIds hbm hsplit hphi hpad oldPred).mp hmem
  rw [redirectIn_id] at hid
  rcases hc₀ with ⟨-, hne⟩ | rfl | rfl
  · exact absurd hid hne
  · rw [Block.phis, phis_ids (redirectIn_core ..), List.takeWhile_append_of_pos]
    · simp [Inst.uncondBr, Inst.isPHI]
    · exact fun i hi => List.all_eq_true.mp List.all_takeWhile i hi
  · have := hM.blocks_lt hb hbm
    have hid' : M.nextId = hb.id := hid
    omega

/- The index of a value that is no new PHI is dropped in the round of that PHI, and otherwise stays. -/
theorem severPHIs_lookup (hM : M.WF) {N M' : Module} (hs : SeverShape M N) {oldPred newBB : BlockId} {lost : List Inst}
    (hsub : ∀ pn ∈ lost, pn ∈ M.insts) {ce ce' : CodeExtractor}
    (hfold : (lost.map Inst.id).foldlM (Atrox.severPHI oldPred newBB) (ce, N) = some (ce', M')) {v : Value}
    (hv : v.below M.nextId) : ce'.inputToOutputMap.lookup v =
      if v ∈ lost.map Inst.val then none else ce.inputToOutputMap.lookup v := by
  induction lost generalizing ce N with
  | nil =>
    cases hfold
    rfl
  | cons pn lost ih =>
    obtain ⟨⟨c, N₁⟩, hstep, hfold⟩ := Option.bind_eq_some_iff.mp hfold
    have hpn := hsub pn (List.mem_cons_self ..)
    rw [ih (severPHI_shape hs hstep) (fun p hp => hsub p (List.mem_cons_of_mem pn hp)) hfold]
    obtain ⟨PN, moved, kept, hfind, -, -, rfl, -⟩ := severPHI_inv hstep
    have hid : PN.id = pn.id := inst?_id hfind
    -- its type is the one that it had
    have hval : PN.val = pn.val := by
      rcases hs.kin PN (inst?_mem hfind) with ⟨i, hi, he⟩ | ⟨hge, -⟩
      · obtain rfl := inst_unique hM.toIds hi hpn ((id_of_head he).trans hid)
        exact head_val he.symm
      · exact absurd (hM.insts_lt pn hpn) (Nat.not_lt.mpr (hid ▸ hge))
    have hne : v ≠ .inst N.nextId PN.ty := by
      rintro rfl
      exact Nat.not_lt.mpr hs.le hv
    dsimp only
    rw [followRAUW_lookup _ hne, hval, List.map_cons]
    by_cases he : v = pn.val
    · rw [if_pos he, if_pos (List.mem_cons.mpr (.inl he)), ite_self]
    · simp only [List.mem_cons, he, false_or, if_false]

/- All rounds over the PHIs of the old header. -/
theorem Severing.severPHIs (hM : M.WF) {N M' : Module} {is : List Inst} {bs : List BlockId} {header oldPred : BlockId}
    {lost : List Inst} (h : Severing M N is bs header lost [] id) (hsub : ∀ pn ∈ lost, pn ∈ M.insts)
    (hnd : (lost.map Inst.id).Nodup) (hold : oldPred ∉ bs) (hheader : header ∈ bs)
    (hexist : ∃ b ∈ N.blocks, b.id = header) {ce ce' : CodeExtractor}
    (hfold : (lost.map Inst.id).foldlM (Atrox.severPHI oldPred header) (ce, N) = some (ce', M')) :
    ce'.blocks = ce.blocks ∧ ∃ ρ, Severing M M' is bs header lost (lost.map Inst.id) ρ := by
  have hlt : ∀ pn ∈ lost, pn.id < M.nextId := fun pn hpn => hM.insts_lt pn (hsub pn hpn)
  have hinj : ∀ pn ∈ lost, ∀ pn' ∈ lost, pn.id = pn'.id → pn = pn' := fun pn hpn pn' hpn' he =>
    inst_unique hM.toIds (hsub pn hpn) (hsub pn' hpn') he
  have hrun := foldlM_run (P := fun done (st : CodeExtractor × Module) =>
    st.1.blocks = ce.blocks ∧ (∃ b ∈ st.2.blocks, b.id = header) ∧ ∃ ρ, Severing M st.2 is bs header lost done ρ)
    (lost.map Inst.id) ?_ ⟨rfl, hexist, id, h⟩ hfold
  · exact ⟨hrun.1, hrun.2.2⟩
  · rintro pre a post ⟨c, N⟩ ⟨c', N'⟩ hsplit ⟨hc, hnew, ρ, hρ⟩ hstep
    dsimp only at hc hnew hρ ⊢
    obtain ⟨PN, hPN, rfl⟩ : ∃ PN ∈ lost, PN.id = a := List.mem_map.mp (hsplit ▸ by simp)
    have hfresh : PN.id ∉ pre := fun hm => by
      rw [hsplit, List.nodup_append] at hnd
      exact hnd.2.2 _ hm _ (List.mem_cons_self ..) rfl
    have hstep' := hρ.severPHI hlt hold hheader hnew hPN hfresh (fun pn hpn he => hinj pn hpn PN hPN he) hstep
    obtain ⟨-, -, hblocks, hids', -⟩ := severPHI_wf hρ.wf hstep
    refine ⟨hblocks.trans hc, ?_, _, hstep'⟩
    obtain ⟨b, hbm, rfl⟩ := hnew
    exact List.mem_map.mp (hids' ▸ List.mem_map_of_mem hbm)

/- The indices after a run of `severSplitPHINodes`: those of the renamed PHIs are gone. -/
theorem severSplitPHINodes_lookup (hM : M.WF) (hv : Verified M) {ce ce' : CodeExtractor} {M' : Module}
    {header header' : BlockId} (hpad : HeaderNoPad M header)
    (h : severSplitPHINodes ce M header = some (ce', M', header')) {hb : Block} (hfind : M.block? header = some hb)
    {v : Value} (hvb : v.below M.nextId) : ce'.inputToOutputMap.lookup v =
      if v ∈ (renamedPHIs M ce.blocks hb).map Inst.val then none else ce.inputToOutputMap.lookup v := by
  obtain ⟨hb', hfind', ⟨hsev, rfl, rfl, rfl⟩ | ⟨n, first, hsev, hfirst, rfl, hrun⟩⟩ := severSplitPHINodes_inv h
  · obtain rfl := Option.some.inj (hfind.symm.trans hfind')
    rw [renamedPHIs, hsev]
    simp
  · obtain rfl := Option.some.inj (hfind.symm.trans hfind')
    obtain ⟨hbm, rfl⟩ := block?_some hfind
    rcases hrun with ⟨rfl, rfl, rfl⟩ | ⟨hn, oldPred, latches, hold, hfold⟩
    · rw [renamedPHIs, hsev]
      simp
    · have hp := hpad.first hfind hfirst
      obtain ⟨hmem, hphi, -⟩ := firstNonPHI_spec hfirst
      have hshape := ((SeverShape.refl hM hv).splitBlock hbm hmem hphi hp).latches latches hb.id M.nextId
      rw [splitBlock_phis hM hbm hfirst hp hold] at hfold
      rw [renamedPHIs, hsev, Option.getD_some, if_neg hn]
      exact severPHIs_lookup hM hshape
        (fun pn hpn => List.mem_flatMap.mpr ⟨hb, hbm, List.takeWhile_subset _ hpn⟩) hfold hvb

/- What a run of `severSplitPHINodes` leaves behind, and which entries it drops. -/
structure Severed (M M' : Module) (ce ce' : CodeExtractor) (header' : BlockId) (hb : Block)
    (ρ : Value → Value) : Prop where
  severing : Severing M M' (M.regionInsts ce.blocks.elems) ce'.blocks.elems header'
    (lostPHIs M ce.blocks hb) ((renamedPHIs M ce.blocks hb).map Inst.id) ρ
  lookup : ∀ v, v.below M.nextId → ce'.inputToOutputMap.lookup v =
    if v ∈ (renamedPHIs M ce.blocks hb).map Inst.val then none else ce.inputToOutputMap.lookup v

theorem severSplitPHINodes_severed (hM : M.WF) (hv : Verified M) (hu : ValidUses M) {ce ce' : CodeExtractor}
    {M' : Module} {header header' : BlockId} (hin : header ∈ ce.blocks)
    (hpad : HeaderNoPad M header) (hentry : SingleEntry M ce.blocks header)
    (h : severSplitPHINodes ce M header = some (ce', M', header')) :
    ∃ hb ρ, M.block? header = some hb ∧ Severed M M' ce ce' header' hb ρ := by
  obtain ⟨hb, hfind, hrun⟩ := severSplitPHINodes_inv h
  suffices hsev : ∃ ρ, Severing M M' (M.regionInsts ce.blocks.elems) ce'.blocks.elems header'
      (lostPHIs M ce.blocks hb) ((renamedPHIs M ce.blocks hb).map Inst.id) ρ by
    obtain ⟨ρ, hρ⟩ := hsev
    exact ⟨hb, ρ, hfind, hρ, fun v hvb => severSplitPHINodes_lookup hM hv hpad h hfind hvb⟩
  rcases hrun with ⟨hsev, rfl, rfl, rfl⟩ | ⟨n, first, hsev, hfirst, rfl, hrun⟩
  · rw [lostPHIs, renamedPHIs, hsev]
    exact ⟨id, .refl hM hv hu ce'.blocks hentry⟩
  · obtain ⟨hbm, rfl⟩ := block?_some hfind
    have hp := hpad.first hfind hfirst
    have h1 := Severing.split hM hv hu hbm hin hentry hfirst hp
    rcases hrun with ⟨rfl, rfl, rfl⟩ | ⟨hn, oldPred, latches, hold, hfold⟩
    · rw [lostPHIs, renamedPHIs, hsev]
      exact ⟨id, h1⟩
    · have hlost : lostPHIs M ce.blocks hb = hb.phis := by
        rw [lostPHIs, hsev]
        rfl
      have hrenamed : renamedPHIs M ce.blocks hb = hb.phis := by
        rw [renamedPHIs, hsev, Option.getD_some, if_neg hn]
      rw [splitBlock_phis hM hbm hfirst hp hold] at hfold
      have hsub : ∀ pn ∈ hb.phis, pn ∈ M.insts := fun pn hpn =>
        List.mem_flatMap.mpr ⟨hb, hbm, List.takeWhile_subset _ hpn⟩
      have hnd : (hb.phis.map Inst.id).Nodup :=
        ((List.takeWhile_sublist _).map Inst.id).nodup (block_insts_nodup hM.toIds hbm)
      have hold' : hb.id ∉ ((ce.blocks.remove hb.id).insert M.nextId).elems := by
        rw [← SetVector.mem_def, SetVector.mem_insert, SetVector.mem_remove]
        rintro (h' | h')
        · exact h'.1 rfl
        · exact Nat.ne_of_lt (hM.blocks_lt hb hbm) h'
      have hex : ∃ b ∈ ((M.splitBlock hb.id first.id).1.mapIn latches
          (Block.mapInsts (Inst.replaceSuccOfWith hb.id M.nextId))).blocks, b.id = M.nextId := by
        obtain ⟨b, hb', hid⟩ := (splitBlock_mem hM first.id ⟨hb, hbm, rfl⟩ M.nextId).mpr (.inr rfl)
        have hids := mapIn_ids (M := (M.splitBlock hb.id first.id).1)
          (g := Block.mapInsts (Inst.replaceSuccOfWith hb.id M.nextId)) (fun _ => rfl) latches
        exact List.mem_map.mp (hids ▸ hid ▸ List.mem_map_of_mem hb')
      have hlt : ∀ pn ∈ hb.phis, pn.id < M.nextId := fun pn hpn => hM.insts_lt pn (hsub pn hpn)
      obtain ⟨hblocks, ρ, hρ⟩ := (h1.latches hlt latches hb.id M.nextId).severPHIs hM hsub hnd hold'
        (SetVector.mem_insert.mpr (.inr rfl)) hex hfold
      rw [hlost, hrenamed, hblocks]
      exact ⟨ρ, hρ⟩

end Sever

section Returns
variable {M N : Module} {is : List Inst} {header : BlockId} {lost : List Inst} {done : List InstId}
  {ρ : Value → Value}

theorem not_ret {u : Inst} (h : u.op.isTerminator = false) : u.op ≠ .ret := by
  intro hop
  rw [hop] at h
  cases h

/- What stays of a block without its return. -/
theorem ReturnSplit.insts {lo : Nat} {b c : Block} (h : ReturnSplit lo b c)
    (hlast : ∀ i ∈ b.insts.dropLast, i.op.isTerminator = false) :
    (∀ u ∈ c.insts, (u ∈ b.insts ∧ u.op ≠ .ret) ∨ ∃ n, lo ≤ n ∧ u = Inst.uncondBr n n) ∧
      (∀ u ∈ b.insts, u.op ≠ .ret → u ∈ c.insts) ∧ ∀ i ∈ c.insts.dropLast, i.op.isTerminator = false := by
  cases h with
  | keep hno =>
    refine ⟨fun u hu => .inl ⟨hu, ?_⟩, fun u hu _ => hu, hlast⟩
    have hne : b.insts ≠ [] := List.ne_nil_of_mem hu
    rw [← List.dropLast_append_getLast hne] at hu
    rcases List.mem_append.mp hu with hu | hu
    · exact not_ret (hlast u hu)
    · rw [List.mem_singleton.mp hu]
      exact hno _ (List.getLast?_eq_some_getLast hne)
  | split xs ri n hxs hop hn =>
    rw [hxs, List.dropLast_concat] at hlast
    refine ⟨fun u hu => ?_, fun u hu hne => ?_, fun i hi => ?_⟩
    · rcases List.mem_append.mp hu with hu | hu
      · exact .inl ⟨hxs ▸ List.mem_append_left _ hu, not_ret (hlast u hu)⟩
      · exact .inr ⟨n, hn, List.mem_singleton.mp hu⟩
    · rw [hxs] at hu
      rcases List.mem_append.mp hu with hu | hu
      · exact List.mem_append_left _ hu
      · exact absurd (List.mem_singleton.mp hu ▸ hop) hne
    · rw [List.dropLast_concat] at hi
      exact hlast i hi

/- Severing moves no terminator in front of the end of a block. -/
theorem severSplitPHINodes_last {ce ce' : CodeExtractor} {M M' : Module} {header header' : BlockId} (hM : M.WF)
    (hlast : ∀ b ∈ M.blocks, ∀ i ∈ b.insts.dropLast, i.op.isTerminator = false) (hpad : HeaderNoPad M header)
    (h : severSplitPHINodes ce M header = some (ce', M', header')) :
    ∀ b ∈ M'.blocks, ∀ i ∈ b.insts.dropLast, i.op.isTerminator = false := by
  have hrun := severSplitPHINodes_run (P := fun _ N =>
    ∀ b ∈ N.blocks, ∀ i ∈ b.insts.dropLast, i.op.isTerminator = false) h ?_ ?_ ?_
  · rcases hrun with ⟨-, rfl, -⟩ | ⟨-, hM'⟩
    · exact hlast
    · exact hM'
  · intro hb first hfind hfirst
    obtain ⟨hbm, rfl⟩ := block?_some hfind
    obtain ⟨-, hphi, rest, hsplit⟩ := firstNonPHI_spec hfirst
    exact splitBlock_last hM.toIds hbm hsplit hphi (hpad.first hfind hfirst) hlast
  · intro _ N latches hN c hc
    obtain ⟨b, hb, rfl⟩ := (latches_blocks N latches header M.nextId).mem hc
    exact (latches_blocks N latches header M.nextId).last (hN b hb)
  · intro _ N _ N' pn hN hstep c hc
    obtain ⟨PN, -, kept, moved, -, -, hr⟩ := severPHI_blocks hstep
    obtain ⟨b, hb, rfl⟩ := hr.mem hc
    exact hr.last (hN b hb)

/- Once the returns are split off, the region has none. -/
theorem splitReturnBlocks_noRet {N : Module} {blocks : SetVector BlockId} (hN : N.WF)
    (hret : ∀ i ∈ N.insts, i.op = .ret → i.succs = [])
    (hlast : ∀ b ∈ N.blocks, ∀ i ∈ b.insts.dropLast, i.op.isTerminator = false)
    (hexist : ∀ b ∈ blocks.elems, ∃ x ∈ N.blocks, x.id = b) :
    ∀ i ∈ (splitReturnBlocks blocks N).regionInsts blocks.elems, i.op ≠ .ret := by
  have hwf := (splitReturnBlocks_from hN blocks).1
  intro u hu
  obtain ⟨c, hc, hcs, huc⟩ := (regionInsts_mem hwf.toIds).mp hu
  obtain ⟨b, hb, hid⟩ := hexist c.id hcs
  obtain ⟨d, hd, hdid, hin, -⟩ := splitReturnBlocks_exact hN hret blocks b hb
  obtain rfl := List.inj_on_of_nodup_map hwf.blocks_nodup hd hc (hdid.trans hid)
  rcases ((hin (hid ▸ hcs)).insts (hlast b hb)).1 u huc with ⟨-, hop⟩ | ⟨n, -, rfl⟩
  · exact hop
  · intro hop
    cases hop

/- What is known of the region stays known without its returns. -/
theorem Severing.splitReturns {blocks : SetVector BlockId}
    (h : Severing M N is blocks.elems header lost done ρ) (hlost : ∀ pn ∈ lost, pn.op ≠ .ret)
    (hexist : ∀ b ∈ blocks.elems, ∃ x ∈ N.blocks, x.id = b) :
    Severing M (splitReturnBlocks blocks N) (is.filter fun i => i.op ≠ .ret) blocks.elems header lost done ρ := by
  have hex := splitReturnBlocks_exact h.wf h.ret blocks
  have hs := splitReturnBlocks_shape h.toSeverShape blocks
  have hback : ∀ c ∈ (splitReturnBlocks blocks N).blocks, c.id ∈ blocks.elems →
      ∃ b ∈ N.blocks, b.id = c.id ∧ b.id ∈ blocks.elems ∧ ReturnSplit N.nextId b c := by
    intro c hc hcs
    obtain ⟨b, hb, hid⟩ := hexist c.id hcs
    have hbs : b.id ∈ blocks.elems := hid ▸ hcs
    obtain ⟨d, hd, hdid, hin, -⟩ := hex b hb
    obtain rfl := List.inj_on_of_nodup_map hs.wf.blocks_nodup hd hc (hdid.trans hid)
    exact ⟨b, hb, hid, hbs, hin hbs⟩
  have hforth : ∀ u ∈ N.regionInsts blocks.elems, u.op ≠ .ret →
      u ∈ (splitReturnBlocks blocks N).regionInsts blocks.elems := by
    intro u hu hop
    obtain ⟨b, hb, hbs, hub⟩ := (regionInsts_mem h.wf.toIds).mp hu
    obtain ⟨c, hc, hid, hin, -⟩ := hex b hb
    exact (regionInsts_mem hs.wf.toIds).mpr ⟨c, hc, hid ▸ hbs, ((hin hbs).insts (h.last b hb hbs)).2.1 u hub hop⟩
  have hopOf : ∀ {u i : Inst}, u.head = i.head → i.op ≠ .ret → u.op ≠ .ret := by
    intro u i hui hop
    rw [op_of_head hui]
    exact hop
  refine ⟨hs, ?_, ?_, h.fixed, ?_, ?_, ?_, ?_⟩
  · intro u hu
    obtain ⟨c, hc, hcs, huc⟩ := (regionInsts_mem hs.wf.toIds).mp hu
    obtain ⟨b, hb, -, hbs, hrs⟩ := hback c hc hcs
    rcases (hrs.insts (h.last b hb hbs)).1 u huc with ⟨hub, hop⟩ | ⟨n, hn, rfl⟩
    · cases h.origin u ((regionInsts_mem h.wf.toIds).mpr ⟨b, hb, hbs, hub⟩) with
      | kept i hi hno hui hops =>
        refine .kept i (List.mem_filter.mpr ⟨hi, decide_eq_true ?_⟩) hno hui hops
        exact hopOf hui.symm hop
      | phi pn hpn hge hop' hρ huse => exact .phi pn hpn hge hop' hρ huse
      | branch hge hop' hnil => exact .branch hge hop' hnil
    · exact .branch (Nat.le_trans h.le hn) rfl rfl
  · intro i hi hno
    obtain ⟨hi, hop⟩ := List.mem_filter.mp hi
    obtain ⟨u, hu, hui, hops⟩ := h.kept i hi hno
    exact ⟨u, hforth u hu (hopOf hui (of_decide_eq_true hop)), hui, hops⟩
  · intro pn hpn hd
    obtain ⟨u, hu, hge, hρ, hop, huse⟩ := h.fresh pn hpn hd
    refine ⟨u, hforth u hu ?_, hge, hρ, hop, huse⟩
    rw [hop]
    decide
  · intro pn hpn hd
    obtain ⟨u, hu, hui, hops⟩ := h.left pn hpn hd
    refine ⟨u, ?_, hui, hops⟩
    obtain ⟨b, hb, hub⟩ := List.mem_flatMap.mp hu
    obtain ⟨c, hc, hid, hin, hout⟩ := hex b hb
    by_cases hbs : b.id ∈ blocks
    · exact List.mem_flatMap.mpr ⟨c, hc, ((hin hbs).insts (h.last b hb hbs)).2.1 u hub (hopOf hui (hlost pn hpn))⟩
    · exact List.mem_flatMap.mpr ⟨c, hc, hout hbs ▸ hub⟩
  · intro c hc hcs hne u hu hphi p hp
    obtain ⟨b, hb, hid, hbs, hrs⟩ := hback c hc hcs
    rcases (hrs.insts (h.last b hb hbs)).1 u hu with ⟨hub, -⟩ | ⟨n, -, rfl⟩
    · exact h.incoming b hb hbs (hid ▸ hne) u hub hphi p hp
    · cases hp
  · intro c hc hcs
    obtain ⟨b, hb, -, hbs, hrs⟩ := hback c hc hcs
    exact (hrs.insts (h.last b hb hbs)).2.2

end Returns

theorem sumLoop_validUses : ValidUses sumLoop where
  last := by decide
  use := by decide

end Atrox
