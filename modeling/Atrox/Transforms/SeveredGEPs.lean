import Atrox.Transforms.FlattenStages
import Atrox.Transforms.GlobalScan
import Atrox.Transforms.SplitBlocks

/-!
# The GEPs of a severed region

Severing leaves PHIs behind and renames them, and splitting the returns off moves nothing
else. The region has the GEPs it had, from the same globals, and the same accesses go
through them.
-/

namespace Atrox
open IR Lib

section Relation

def HasGEP (is : List Inst) (n : InstId) : Prop := ∃ i ∈ is, i.id = n ∧ i.op = .getElementPtr

/- A GEP in one of the blocks has the number. -/
def GEPIn (M : Module) (bs : List BlockId) (n : InstId) : Prop :=
  ∃ b ∈ M.blocks, b.id ∈ bs ∧ HasGEP b.insts n

/- The value stays, or it is the name of an instruction, and so is what takes its place, but of no GEP. -/
def Renamed (M N : Module) (v w : Value) : Prop :=
  w = v ∨ ∃ p q t, v = .inst p t ∧ w = .inst q t ∧ ¬HasGEP M.insts p ∧ ¬HasGEP N.insts q

/- Operands are renamed; those of a PHI may go with their edges. -/
def Follows (ρ : Value → Value) (i u : Inst) : Prop :=
  u.head = i.head ∧ (i.op = .phi ∨ u.operands = i.operands.map ρ)

/- The blocks `bs'` of `N` have the GEPs that the blocks `bs` of `M` have. -/
structure GEPsKept (M : Module) (bs : List BlockId) (N : Module) (bs' : List BlockId) (ρ : Value → Value) : Prop where
  forth : ∀ i ∈ M.insts, ∃ u ∈ N.insts, Follows ρ i u
  back : ∀ u ∈ N.insts, u.op = .getElementPtr → ∃ i ∈ M.insts, u.head = i.head
  region : ∀ n, GEPIn M bs n ↔ GEPIn N bs' n
  renamed : ∀ v, Renamed M N v (ρ v)

theorem hasGEP_append {xs ys : List Inst} {n : InstId} : HasGEP (xs ++ ys) n ↔ HasGEP xs n ∨ HasGEP ys n := by
  simp only [HasGEP, List.mem_append, or_and_right, exists_or]

/- Only numbers and opcodes count. -/
theorem hasGEP_of_heads {is js : List Inst} (h : ∀ j ∈ js, j.op = .getElementPtr → ∃ i ∈ is, j.head = i.head)
    {n : InstId} (hn : HasGEP js n) : HasGEP is n := by
  obtain ⟨j, hj, rfl, hop⟩ := hn
  obtain ⟨i, hi, he⟩ := h j hj hop
  exact ⟨i, hi, (id_of_head he).symm, (op_of_head he).symm.trans hop⟩

theorem hasGEP_core {is js : List Inst} (h : js.map Inst.core = is.map Inst.core) {n : InstId} :
    HasGEP js n ↔ HasGEP is n := by
  constructor
  · refine hasGEP_of_heads fun j hj _ => ?_
    obtain ⟨i, hi, he⟩ := mem_of_core h.symm hj
    exact ⟨i, hi, (head_of_core he).symm⟩
  · refine hasGEP_of_heads fun i hi _ => ?_
    obtain ⟨j, hj, he⟩ := mem_of_core h hi
    exact ⟨j, hj, (head_of_core he).symm⟩

theorem not_hasGEP {is : List Inst} (h : ∀ i ∈ is, i.op ≠ .getElementPtr) (n : InstId) : ¬HasGEP is n := by
  rintro ⟨i, hi, -, hop⟩
  exact h i hi hop

variable {M N K : Module} {bs bs' bs'' : List BlockId} {ρ σ : Value → Value}

theorem GEPsKept.hasGEP_iff (h : GEPsKept M bs N bs' ρ) (n : InstId) : HasGEP M.insts n ↔ HasGEP N.insts n := by
  constructor
  · refine hasGEP_of_heads fun i hi _ => ?_
    obtain ⟨u, hu, he, -⟩ := h.forth i hi
    exact ⟨u, hu, he.symm⟩
  · exact hasGEP_of_heads h.back

theorem GEPsKept.refl (M : Module) (bs : List BlockId) : GEPsKept M bs M bs id where
  forth := fun i hi => ⟨i, hi, rfl, .inr (List.map_id _).symm⟩
  back := fun u hu _ => ⟨u, hu, rfl⟩
  region := fun _ => Iff.rfl
  renamed := fun _ => .inl rfl

theorem GEPsKept.trans (h : GEPsKept M bs N bs' ρ) (h' : GEPsKept N bs' K bs'' σ) :
    GEPsKept M bs K bs'' (σ ∘ ρ) where
  forth := by
    intro i hi
    obtain ⟨u, hu, hui, hops⟩ := h.forth i hi
    obtain ⟨x, hx, hxu, hops'⟩ := h'.forth u hu
    refine ⟨x, hx, hxu.trans hui, ?_⟩
    rcases hops with hphi | hops
    · exact .inl hphi
    · rcases hops' with hphi | hops'
      · exact .inl ((op_of_head hui).symm.trans hphi)
      · rw [hops', hops, List.map_map]
        exact .inr rfl
  back := by
    intro x hx hop
    obtain ⟨u, hu, hxu⟩ := h'.back x hx hop
    obtain ⟨i, hi, hui⟩ := h.back u hu ((op_of_head hxu).symm.trans hop)
    exact ⟨i, hi, hxu.trans hui⟩
  region := fun n => (h.region n).trans (h'.region n)
  renamed := by
    intro v
    change Renamed M K v (σ (ρ v))
    rcases h.renamed v with he | ⟨p, q, t, rfl, hw, hp, hq⟩
    · rw [he]
      rcases h'.renamed v with he' | ⟨p, q, t, rfl, hx, hp, hq⟩
      · exact .inl he'
      · exact .inr ⟨p, q, t, rfl, hx, fun hgep => hp ((h.hasGEP_iff p).mp hgep), hq⟩
    · refine .inr ?_
      rw [hw]
      rcases h'.renamed (.inst q t) with he' | ⟨p', q', t', hv, hx, -, hq'⟩
      · exact ⟨p, q, t, rfl, he', hp, fun hgep => hq ((h'.hasGEP_iff q).mpr hgep)⟩
      · obtain ⟨rfl, rfl⟩ := Value.inst.inj hv
        exact ⟨p, q', t, rfl, hx, hp, hq'⟩

end Relation

section Split
variable {M : Module} {b : Block} {xs ys : List Inst} {i : Inst} {bs bs' : List BlockId}

/- GEPs of a block that is cut are in its pieces. -/
theorem gepIn_cut (hM : M.Ids) (hb : b ∈ M.blocks) (hsplit : b.insts = xs ++ i :: ys) (n : InstId) :
    GEPIn M bs n ↔ (∃ c ∈ M.blocks, c.id ≠ b.id ∧ c.id ∈ bs ∧ HasGEP c.insts n) ∨
      (b.id ∈ bs ∧ (HasGEP xs n ∨ HasGEP (i :: ys) n)) := by
  rw [← hasGEP_append, ← hsplit]
  constructor
  · rintro ⟨c, hc, hcs, hn⟩
    by_cases he : c.id = b.id
    · obtain rfl := List.inj_on_of_nodup_map hM.blocks_nodup hc hb he
      exact .inr ⟨hcs, hn⟩
    · exact .inl ⟨c, hc, he, hcs, hn⟩
  · rintro (⟨c, hc, -, hcs, hn⟩ | ⟨hbs, hn⟩)
    · exact ⟨c, hc, hcs, hn⟩
    · exact ⟨b, hb, hbs, hn⟩

theorem gepIn_splitBlock (hM : M.Ids) (hb : b ∈ M.blocks) (hsplit : b.insts = xs ++ i :: ys)
    (hphi : i.isPHI = false) (hpad : i.op.isEHPad = false) (n : InstId) :
    GEPIn (M.splitBlock b.id i.id).1 bs' n ↔ (∃ c ∈ M.blocks, c.id ≠ b.id ∧ c.id ∈ bs' ∧ HasGEP c.insts n) ∨
      (b.id ∈ bs' ∧ HasGEP xs n) ∨ (M.nextId ∈ bs' ∧ HasGEP (i :: ys) n) := by
  have hex := splitBlock_exact hM hb hsplit hphi hpad
  have hcore : ∀ {c₀ : Block}, HasGEP (c₀.redirectIn b.succs b.id M.nextId).insts n ↔ HasGEP c₀.insts n :=
    hasGEP_core (redirectIn_core ..)
  have hhead : HasGEP (xs ++ [Inst.uncondBr M.nextId M.nextId]) n ↔ HasGEP xs n := by
    rw [hasGEP_append]
    refine or_iff_left (not_hasGEP (fun j hj hop => ?_) n)
    rw [List.mem_singleton.mp hj] at hop
    cases hop
  constructor
  · rintro ⟨c, hc, hcs, hn⟩
    obtain ⟨c₀, rfl, hc₀⟩ := (hex c).mp hc
    rw [redirectIn_id] at hcs
    rw [hcore] at hn
    rcases hc₀ with ⟨hm, hne⟩ | rfl | rfl
    · exact .inl ⟨c₀, hm, hne, hcs, hn⟩
    · exact .inr (.inl ⟨hcs, hhead.mp hn⟩)
    · exact .inr (.inr ⟨hcs, hn⟩)
  · have hcs' : ∀ {c₀ : Block}, c₀.id ∈ bs' → (c₀.redirectIn b.succs b.id M.nextId).id ∈ bs' := fun h => by
      rwa [redirectIn_id]
    rintro (⟨c, hc, hne, hcs, hn⟩ | ⟨hcs, hn⟩ | ⟨hcs, hn⟩)
    · exact ⟨_, (hex _).mpr ⟨c, rfl, .inl ⟨hc, hne⟩⟩, hcs' hcs, hcore.mpr hn⟩
    · exact ⟨_, (hex _).mpr ⟨_, rfl, .inr (.inl rfl)⟩, hcs' hcs, hcore.mpr (hhead.mpr hn)⟩
    · exact ⟨_, (hex _).mpr ⟨_, rfl, .inr (.inr rfl)⟩, hcs' hcs, hcore.mpr hn⟩

theorem splitBlock_gepsKept (hM : M.Ids) (hb : b ∈ M.blocks) (pt : InstId)
    (hregion : ∀ n, GEPIn M bs n ↔ GEPIn (M.splitBlock b.id pt).1 bs' n) :
    GEPsKept M bs (M.splitBlock b.id pt).1 bs' id where
  forth := by
    intro j hj
    obtain ⟨u, hu, huj⟩ := (splitBlock_sameInsts hM hb pt).forth j hj
    exact ⟨u, hu, head_of_core huj, .inr (by rw [operands_of_core huj, List.map_id])⟩
  back := by
    intro u hu hop
    rcases splitBlock_insts M b.id pt u hu with ⟨j, hj, huj⟩ | hbr
    · exact ⟨j, hj, head_of_core huj⟩
    · rw [op_of_core (show u.core = (Inst.uncondBr M.nextId M.nextId).core from hbr)] at hop
      cases hop
  region := hregion
  renamed := fun _ => .inl rfl

/- The PHIs of the header are no GEPs. -/
theorem splitHeader_gepsKept (hM : M.WF) {blocks : SetVector BlockId} (hb : b ∈ M.blocks) (hin : b.id ∈ blocks)
    {first : Inst} (hfirst : b.insts[b.firstNonPHI]? = some first) (hpad : first.op.isEHPad = false) :
    GEPsKept M blocks.elems (M.splitBlock b.id first.id).1 ((blocks.remove b.id).insert M.nextId).elems id := by
  obtain ⟨-, hphi, rest, hsplit⟩ := firstNonPHI_spec hfirst
  refine splitBlock_gepsKept hM.toIds hb first.id fun n => ?_
  have hno : ¬HasGEP b.phis n := not_hasGEP (fun j hj hop => by
    have h := List.all_eq_true.mp List.all_takeWhile j hj
    rw [Inst.isPHI, hop] at h
    cases h) n
  have hnew : ∀ c ∈ M.blocks, c.id ≠ M.nextId := fun c hc => Nat.ne_of_lt (hM.blocks_lt c hc)
  have hmem : ∀ m, m ∈ ((blocks.remove b.id).insert M.nextId).elems ↔ (m ≠ b.id ∧ m ∈ blocks) ∨ m = M.nextId :=
    fun m => by rw [← SetVector.mem_def, SetVector.mem_insert, SetVector.mem_remove]
  rw [gepIn_cut hM.toIds hb hsplit, gepIn_splitBlock hM.toIds hb hsplit hphi hpad]
  refine or_congr (exists_congr fun c => and_congr_right fun hc => and_congr_right fun hne => ?_) ?_
  · rw [hmem, or_iff_left (hnew c hc)]
    exact and_congr_left fun _ => (and_iff_right hne).symm
  · have hout : b.id ∉ ((blocks.remove b.id).insert M.nextId).elems := by
      rw [hmem]
      rintro (h | h)
      · exact h.1 rfl
      · exact hnew b hb h
    have hnext : M.nextId ∈ ((blocks.remove b.id).insert M.nextId).elems := (hmem _).mpr (.inr rfl)
    rw [or_iff_right hno, and_iff_right (SetVector.mem_def.mp hin), or_iff_right fun h => hout h.1,
      and_iff_right hnext]

/- A return is no GEP. -/
theorem splitReturnBlock_gepsKept (hM : M.WF) (bs : List BlockId) (a : BlockId) :
    GEPsKept M bs (splitReturnBlock M a) bs id := by
  unfold splitReturnBlock
  split
  · next ri hri =>
    split
    · next hop =>
      obtain ⟨x, hx, hlast⟩ := Option.bind_eq_some_iff.mp hri
      obtain ⟨hxm, rfl⟩ := block?_some hx
      obtain ⟨xs, hsplit⟩ := List.getLast?_eq_some_iff.mp hlast
      have hphi : ri.isPHI = false := by simp [Inst.isPHI, hop]
      have hpad : ri.op.isEHPad = false := by rw [hop]; rfl
      have hno : ∀ n, ¬HasGEP [ri] n := not_hasGEP fun j hj hgep => by
        rw [List.mem_singleton.mp hj, hop] at hgep
        cases hgep
      refine splitBlock_gepsKept hM.toIds hxm ri.id fun n => ?_
      rw [gepIn_cut hM.toIds hxm hsplit, gepIn_splitBlock hM.toIds hxm hsplit hphi hpad, or_iff_left (hno n),
        or_iff_left (fun h : M.nextId ∈ bs ∧ HasGEP [ri] n => hno n h.2)]
    · exact .refl M bs
  · exact .refl M bs

theorem splitReturnBlocks_gepsKept (hM : M.WF) (bs : List BlockId) (blocks : SetVector BlockId) :
    GEPsKept M bs (splitReturnBlocks blocks M) bs id := by
  refine (foldl_preserves (f := splitReturnBlock) (P := fun N => N.WF ∧ GEPsKept M bs N bs id) blocks.elems ?_
    ⟨hM, .refl M bs⟩).2
  rintro a N - ⟨hN, h⟩
  exact ⟨(splitReturnBlock_from hN a).1, h.trans (splitReturnBlock_gepsKept hN bs a)⟩

end Split

section Sever
variable {M N : Module} {bs : List BlockId} {ρ : Value → Value}

theorem Rewrites.hasGEP {front : Block → List Inst} {g : Block → Inst → Inst} (hr : Rewrites M N front g)
    (b : Block) (n : InstId) : HasGEP (front b ++ b.insts.map (g b)) n ↔ HasGEP b.insts n := by
  rw [hasGEP_append, or_iff_right]
  · constructor
    · refine hasGEP_of_heads fun j hj _ => ?_
      obtain ⟨i, hi, rfl⟩ := List.mem_map.mp hj
      exact ⟨i, hi, hr.head b i⟩
    · exact hasGEP_of_heads fun i hi _ => ⟨g b i, List.mem_map_of_mem hi, (hr.head b i).symm⟩
  · refine not_hasGEP (fun j hj hop => ?_) n
    rw [hr.phi b j hj] at hop
    cases hop

/- What is put in front is a PHI. -/
theorem Rewrites.inst {front : Block → List Inst} {g : Block → Inst → Inst} (hr : Rewrites M N front g)
    {u : Inst} (hu : u ∈ N.insts) : u.op = .phi ∨ ∃ i ∈ M.insts, u.head = i.head := by
  obtain ⟨c, hc, huc⟩ := List.mem_flatMap.mp hu
  obtain ⟨b, hb, rfl⟩ := hr.mem hc
  rcases List.mem_append.mp huc with hu | hu
  · exact .inl (hr.phi b u hu)
  · obtain ⟨i, hi, rfl⟩ := List.mem_map.mp hu
    exact .inr ⟨i, List.mem_flatMap.mpr ⟨b, hb, hi⟩, hr.head b i⟩

theorem Rewrites.gep_back {front : Block → List Inst} {g : Block → Inst → Inst} (hr : Rewrites M N front g)
    {u : Inst} (hu : u ∈ N.insts) (hop : u.op = .getElementPtr) : ∃ i ∈ M.insts, u.head = i.head := by
  refine (hr.inst hu).resolve_left fun hphi => ?_
  rw [hop] at hphi
  cases hphi

/- Numbers that name PHIs go on to name PHIs. -/
theorem Rewrites.phis {front : Block → List Inst} {g : Block → Inst → Inst} (hr : Rewrites M N front g)
    {ns : List InstId} (h : ∀ i ∈ M.insts, i.id ∈ ns → i.op = .phi) : ∀ u ∈ N.insts, u.id ∈ ns → u.op = .phi := by
  intro u hu hid
  rcases hr.inst hu with hphi | ⟨i, hi, he⟩
  · exact hphi
  · exact (op_of_head he).trans (h i hi (id_of_head he ▸ hid))

theorem Rewrites.gepsKept {front : Block → List Inst} {g : Block → Inst → Inst} (hr : Rewrites M N front g)
    (hops : ∀ b ∈ M.blocks, ∀ i ∈ b.insts, i.op = .phi ∨ (g b i).operands = i.operands.map ρ)
    (hρ : ∀ v, Renamed M N v (ρ v)) : GEPsKept M bs N bs ρ := by
  have hmem : ∀ b ∈ M.blocks, ({ b with insts := front b ++ b.insts.map (g b) } : Block) ∈ N.blocks := by
    intro b hb
    rw [hr.blocks]
    exact List.mem_map.mpr ⟨b, hb, rfl⟩
  refine ⟨fun i hi => ?_, fun u => hr.gep_back, fun n => ⟨?_, ?_⟩, hρ⟩
  · obtain ⟨b, hb, hib⟩ := List.mem_flatMap.mp hi
    refine ⟨g b i, List.mem_flatMap.mpr ⟨_, hmem b hb, ?_⟩, hr.head b i, hops b hb i hib⟩
    exact List.mem_append_right _ (List.mem_map_of_mem hib)
  · rintro ⟨b, hb, hbs, hn⟩
    exact ⟨_, hmem b hb, hbs, (hr.hasGEP b n).mpr hn⟩
  · rintro ⟨c, hc, hbs, hn⟩
    obtain ⟨b, hb, rfl⟩ := hr.mem hc
    exact ⟨b, hb, hbs, (hr.hasGEP b n).mp hn⟩

theorem latches_gepsKept (M : Module) (bs latches : List BlockId) (src dst : BlockId) :
    GEPsKept M bs (M.mapIn latches (Block.mapInsts (Inst.replaceSuccOfWith src dst))) bs id := by
  refine (latches_blocks M latches src dst).gepsKept (fun b _ i _ => .inr ?_) fun _ => .inl rfl
  rw [List.map_id]
  split <;> rfl

/- The name of a PHI gives way to that of a new one. -/
theorem severPHI_gepsKept (bs : List BlockId) {oldPred newBB : BlockId} {ce ce' : CodeExtractor} {pn : InstId} (hM : M.WF)
    (hphi : ∀ i ∈ M.insts, i.id = pn → i.op = .phi) (h : severPHI oldPred newBB (ce, M) pn = some (ce', N)) :
    ∃ ρ, GEPsKept M bs N bs ρ := by
  obtain ⟨PN, hPN, kept, moved, -, -, hr⟩ := severPHI_blocks h
  have hpn : PN.id = pn := inst?_id hPN
  have hop : ∀ i ∈ M.insts, i.id = PN.id → i.op = .phi := fun i hi hid => hphi i hi (hid.trans hpn)
  refine ⟨fun v => if v = PN.val then .inst M.nextId PN.ty else v, hr.gepsKept (fun b hb i hi => ?_) fun v => ?_⟩
  · by_cases hid : b.id = oldPred ∧ i.id = PN.id
    · exact .inl (hop i (List.mem_flatMap.mpr ⟨b, hb, hi⟩) hid.2)
    · rw [severInst_other hid]
      exact .inr rfl
  · by_cases hv : v = PN.val
    · refine .inr ⟨PN.id, M.nextId, PN.ty, hv, if_pos hv, ?_, ?_⟩
      · rintro ⟨i, hi, hid, hgep⟩
        rw [hop i hi hid] at hgep
        cases hgep
      · rintro ⟨u, hu, hid, hgep⟩
        obtain ⟨i, hi, he⟩ := hr.gep_back hu hgep
        have hlt := hM.insts_lt i hi
        have hii : i.id = M.nextId := (id_of_head he).symm.trans hid
        omega
    · exact .inl (if_neg hv)

theorem severSplitPHINodes_gepsKept {ce ce' : CodeExtractor} {header header' : BlockId} (hM : M.WF)
    (hin : header ∈ ce.blocks) (hpad : HeaderNoPad M header)
    (h : severSplitPHINodes ce M header = some (ce', N, header')) :
    ∃ ρ, GEPsKept M ce.blocks.elems N ce'.blocks.elems ρ := by
  obtain ⟨hb, hfind, hrun⟩ := severSplitPHINodes_inv h
  rcases hrun with ⟨-, rfl, rfl, -⟩ | ⟨n, first, -, hfirst, -, hrun⟩
  · exact ⟨id, .refl N _⟩
  · obtain ⟨hbm, rfl⟩ := block?_some hfind
    have hsplit := splitHeader_gepsKept hM hbm hin hfirst (hpad.first hfind hfirst)
    rcases hrun with ⟨-, rfl, rfl⟩ | ⟨-, oldPred, latches, hold, hfold⟩
    · exact ⟨id, hsplit⟩
    · have hwf := splitBlock_wf hM hb.id first.id
      have hlatches := hsplit.trans (latches_gepsKept _ _ latches hb.id M.nextId)
      have hwf' := latches_wf hwf latches hb.id M.nextId
      -- the numbers of the PHIs name PHIs in every round
      have hphis : ∀ i ∈ (M.splitBlock hb.id first.id).1.insts, i.id ∈ oldPred.phis.map Inst.id → i.op = .phi := by
        intro i hi hid
        obtain ⟨pn, hpn, hpi⟩ := List.mem_map.mp hid
        have hpm : pn ∈ (M.splitBlock hb.id first.id).1.insts :=
          List.mem_flatMap.mpr ⟨oldPred, (block?_some hold).1, List.takeWhile_subset _ hpn⟩
        rw [← inst_unique hwf.toIds hpm hi hpi]
        exact of_decide_eq_true (List.all_eq_true.mp List.all_takeWhile pn hpn)
      have hkept := foldlM_preserves (P := fun st : CodeExtractor × Module => st.2.WF ∧
        (∀ i ∈ st.2.insts, i.id ∈ oldPred.phis.map Inst.id → i.op = .phi) ∧
        ∃ ρ, GEPsKept M ce.blocks.elems st.2 st.1.blocks.elems ρ) _ ?_
        ⟨hwf', (latches_blocks _ latches hb.id M.nextId).phis hphis, _, hlatches⟩ hfold
      · exact hkept.2.2
      · rintro pn ⟨c, K⟩ ⟨c', K'⟩ hpn ⟨hK, hphi, ρ, hρ⟩ hstep
        dsimp only at hK hphi hρ ⊢
        obtain ⟨hK', -, hblocks, -, -⟩ := severPHI_wf hK hstep
        obtain ⟨σ, hσ⟩ := severPHI_gepsKept c.blocks.elems hK (fun i hi hid => hphi i hi (hid ▸ hpn)) hstep
        obtain ⟨PN, -, kept, moved, -, -, hr⟩ := severPHI_blocks hstep
        exact ⟨hK', hr.phis hphi, _, hblocks ▸ hρ.trans hσ⟩

end Sever

section Accesses
variable {M N : Module} {bs bs' : List BlockId} {ρ : Value → Value}

theorem Renamed.ty {v w : Value} (h : Renamed M N v w) : w.ty = v.ty := by
  rcases h with rfl | ⟨p, q, t, rfl, rfl, -, -⟩ <;> rfl

/- Globals are not renamed, and nothing is renamed to one. -/
theorem Renamed.global_iff {v w g : Value} (h : Renamed M N v w) (hg : g.isGlobalVariable = true) :
    w = g ↔ v = g := by
  rcases h with rfl | ⟨p, q, t, rfl, rfl, -, -⟩
  · exact Iff.rfl
  · constructor
    · rintro rfl
      cases hg
    · rintro rfl
      cases hg

/- Nor are GEPs. -/
theorem Renamed.gep_iff {v w : Value} (h : Renamed M N v w) {n : InstId} (hM : HasGEP M.insts n)
    (hN : HasGEP N.insts n) (t : Ty) : w = .inst n t ↔ v = .inst n t := by
  rcases h with rfl | ⟨p, q, s, rfl, rfl, hp, hq⟩
  · exact Iff.rfl
  · constructor
    · rintro he
      exact absurd hN ((Value.inst.inj he).1 ▸ hq)
    · rintro he
      exact absurd hM ((Value.inst.inj he).1 ▸ hp)

/- A GEP and what it has become. -/
theorem GEPsKept.follow (h : GEPsKept M bs N bs' ρ) (hN : N.Ids) {i u : Inst} (hi : i ∈ M.insts)
    (hu : u ∈ N.insts) (hid : u.id = i.id) : Follows ρ i u := by
  obtain ⟨x, hx, hf⟩ := h.forth i hi
  rwa [inst_unique hN hu hx (hid.trans (id_of_head hf.1).symm)]

theorem Follows.operands {i u : Inst} (h : Follows ρ i u) (hop : i.op ≠ .phi) : u.operands = i.operands.map ρ :=
  h.2.resolve_left hop

theorem Follows.gepPointer {i u : Inst} (h : Follows ρ i u) (hop : i.op = .getElementPtr) :
    gepPointer u = (gepPointer i).map ρ := by
  have hphi : i.op ≠ .phi := by
    rw [hop]
    decide
  rw [Atrox.gepPointer, Atrox.gepPointer, h.operands hphi, List.head?_map]

/- The access goes through a GEP exactly if its pointer operand is the name of the GEP. -/
theorem accessGEP_iff (hM : M.Ids) {x : Inst} (hx : x ∈ M.insts) {gep : Inst} (hgep : gep ∈ M.insts)
    (hop : gep.op = .getElementPtr) : accessGEP M x.id = some gep ↔ ∃ t, getPointerOperand x = some (.inst gep.id t) := by
  unfold accessGEP
  rw [inst?_of_mem hM hx]
  simp only [bind, Option.bind_some]
  constructor
  · intro h
    obtain ⟨v, hv, h⟩ := Option.bind_eq_some_iff.mp h
    cases v with
    | inst n t =>
      obtain ⟨y, hy, h⟩ := Option.bind_eq_some_iff.mp h
      split at h
      · obtain rfl := Option.some.inj h
        exact ⟨t, by rw [hv, inst?_id hy]⟩
      · cases h
    | _ => cases h
  · rintro ⟨t, ht⟩
    rw [ht]
    simp only [Option.bind_some, inst?_of_mem hM hgep, if_pos hop]

/- Accesses go through the GEPs they went through. -/
theorem GEPsKept.accessGEP_iff (h : GEPsKept M bs N bs' ρ) (hM : M.Ids) (hN : N.Ids) {a : InstId}
    (ha : ∃ x ∈ M.insts, x.id = a) {i u : Inst} (hi : i ∈ M.insts) (hu : u ∈ N.insts) (hid : u.id = i.id)
    (hop : i.op = .getElementPtr) : accessGEP N a = some u ↔ accessGEP M a = some i := by
  obtain ⟨x, hx, rfl⟩ := ha
  obtain ⟨y, hy, hyx, hops⟩ := h.forth x hx
  have huop : u.op = .getElementPtr := (op_of_head (h.follow hN hi hu hid).1).trans hop
  have hgM : HasGEP M.insts i.id := ⟨i, hi, rfl, hop⟩
  have hgN : HasGEP N.insts i.id := ⟨u, hu, hid, huop⟩
  rw [← id_of_head hyx, Atrox.accessGEP_iff hN hy hu huop, id_of_head hyx, Atrox.accessGEP_iff hM hx hi hop, hid]
  refine exists_congr fun t => ?_
  by_cases hphi : x.op = .phi
  · have hy' : y.op = .phi := (op_of_head hyx).trans hphi
    simp only [getPointerOperand, hphi, hy']
  · rw [getPointerOperand_map (op_of_head hyx) (hops.resolve_left hphi), Option.map_eq_some_iff]
    constructor
    · rintro ⟨v, hv, he⟩
      rw [hv, ((h.renamed v).gep_iff hgM hgN t).mp he]
    · exact fun hv => ⟨_, hv, ((h.renamed _).gep_iff hgM hgN t).mpr rfl⟩

/- The same GEPs are flattened. -/
theorem GEPsKept.flattens (h : GEPsKept M bs N bs' ρ) (hM : M.Ids) (hN : N.Ids) {accesses : List InstId}
    (hacc : ∀ a ∈ accesses, ∃ x ∈ M.insts, x.id = a) {i u : Inst} (hi : i ∈ M.insts) (hu : u ∈ N.insts)
    (hid : u.id = i.id) (hop : i.op = .getElementPtr) : flattens N accesses u = flattens M accesses i := by
  have hdim : dimensions u = dimensions i := by
    rw [dimensions, dimensions, (h.follow hN hi hu hid).gepPointer hop]
    cases gepPointer i with
    | none => rfl
    | some p =>
      rw [Option.map_some, Option.elim_some, Option.elim_some, (h.renamed p).ty]
  have hany : (accesses.any fun a => accessGEP N a = some u) = accesses.any fun a => accessGEP M a = some i := by
    rw [Bool.eq_iff_iff, List.any_eq_true, List.any_eq_true]
    simp only [decide_eq_true_eq]
    exact exists_congr fun a => and_congr_right fun ha => h.accessGEP_iff hM hN (hacc a ha) hi hu hid hop
  rw [Atrox.flattens, Atrox.flattens, hdim, hany]

theorem mem_regionGeps (hM : M.Ids) {blocks : SetVector BlockId} {gep : Inst} :
    gep ∈ regionGeps M blocks ↔ gep ∈ M.insts ∧ gep.op = .getElementPtr ∧ GEPIn M blocks.elems gep.id := by
  rw [regionGeps, List.mem_filter, regionInsts_mem hM, decide_eq_true_eq]
  constructor
  · rintro ⟨⟨b, hb, hbs, hi⟩, hop⟩
    exact ⟨List.mem_flatMap.mpr ⟨b, hb, hi⟩, hop, b, hb, hbs, gep, hi, rfl, hop⟩
  · rintro ⟨hgep, hop, b, hb, hbs, i, hi, hid, -⟩
    obtain rfl := inst_unique hM (List.mem_flatMap.mpr ⟨b, hb, hi⟩) hgep hid
    exact ⟨⟨b, hb, hbs, hi⟩, hop⟩

/- What is said of the GEPs on globals of the one region holds of those of the other. -/
theorem GEPsKept.globals_iff {blocks blocks' : SetVector BlockId} (h : GEPsKept M blocks.elems N blocks'.elems ρ)
    (hM : M.Ids) (hN : N.Ids) {accesses : List InstId} (hacc : ∀ a ∈ accesses, ∃ x ∈ M.insts, x.id = a)
    (P : Value → Prop) :
    (∀ gep ∈ regionGeps N blocks', ∀ g, Atrox.gepPointer gep = some g → g.isGlobalVariable = true →
      Atrox.flattens N accesses gep = false → P g) ↔
    ∀ gep ∈ regionGeps M blocks, ∀ g, Atrox.gepPointer gep = some g → g.isGlobalVariable = true →
      Atrox.flattens M accesses gep = false → P g := by
  -- the pointers of a GEP before and after
  have hpair : ∀ {i u g}, i ∈ M.insts → u ∈ N.insts → u.id = i.id → i.op = .getElementPtr →
      g.isGlobalVariable = true → (Atrox.gepPointer u = some g ↔ Atrox.gepPointer i = some g) := by
    intro i u g hi hu hid hop hg
    rw [(h.follow hN hi hu hid).gepPointer hop, Option.map_eq_some_iff]
    constructor
    · rintro ⟨v, hv, he⟩
      rw [hv, ((h.renamed v).global_iff hg).mp he]
    · exact fun hv => ⟨g, hv, ((h.renamed g).global_iff hg).mpr rfl⟩
  constructor
  · intro hall gep hgep g hptr hg hflat
    obtain ⟨hi, hop, hin⟩ := (mem_regionGeps hM).mp hgep
    obtain ⟨u, hu, hf⟩ := h.forth gep hi
    have hid := id_of_head hf.1
    refine hall u ((mem_regionGeps hN).mpr ⟨hu, (op_of_head hf.1).trans hop, ?_⟩) g
      ((hpair hi hu hid hop hg).mpr hptr) hg ((h.flattens hM hN hacc hi hu hid hop).trans hflat)
    rw [hid]
    exact (h.region _).mp hin
  · intro hall u hu g hptr hg hflat
    obtain ⟨hum, huop, hin⟩ := (mem_regionGeps hN).mp hu
    obtain ⟨i, hi, he⟩ := h.back u hum huop
    have hid := id_of_head he
    have hop := (op_of_head he).symm.trans huop
    refine hall i ((mem_regionGeps hM).mpr ⟨hi, hop, ?_⟩) g ((hpair hi hum hid hop hg).mp hptr) hg
      ((h.flattens hM hN hacc hi hum hid hop).symm.trans hflat)
    rw [← hid]
    exact (h.region _).mpr hin

end Accesses

end Atrox
