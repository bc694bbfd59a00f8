import Atrox.Transforms.BlockLabels
import Atrox.Transforms.SplitBehaviour

/-!
# A second run of the pass

The iterator information of a later run knows the old instructions as before and takes the branches made by the
splits for anything. The run finds nothing to cut, unless the PHIs of a block differ.
-/

namespace Atrox
open IR

section Blocks
variable {info info' : IteratorInfo}

/- One terminator, at the end. -/
def EndsOnce (is : List Inst) : Prop :=
  ∃ xs t, is = xs ++ [t] ∧ t.op.isTerminator = true ∧ ∀ i ∈ xs, i.op.isTerminator = false

theorem EndsOnce.of_core {is js : List Inst} (hs : EndsOnce is) (h : js.map Inst.core = is.map Inst.core) : EndsOnce js := by
  obtain ⟨xs, t, rfl, ht, hxs⟩ := hs
  rw [List.map_append] at h
  obtain ⟨ys, r, rfl, hys, hr⟩ := List.map_eq_append_iff.mp h
  obtain ⟨u, rs, rfl, hu, hrs⟩ := List.map_eq_cons_iff.mp hr
  obtain rfl := List.map_eq_nil_iff.mp hrs
  refine ⟨ys, u, rfl, (congrArg Opcode.isTerminator (op_of_core hu)).trans ht, fun i hi => ?_⟩
  obtain ⟨j, hj, he⟩ := mem_of_core hys.symm hi
  rw [← op_of_core he]
  exact hxs j hj

/- The two halves of a cut. -/
theorem EndsOnce.head {xs ys : List Inst} {i : Inst} (hs : EndsOnce (xs ++ i :: ys)) (n : InstId) (d : BlockId) :
    EndsOnce (xs ++ [Inst.uncondBr n d]) := by
  obtain ⟨zs, t, he, -, hzs⟩ := hs
  refine ⟨xs, Inst.uncondBr n d, rfl, rfl, fun j hj => hzs j ?_⟩
  have hlast : zs = (xs ++ i :: ys).dropLast := by rw [he, List.dropLast_concat]
  rw [hlast, List.dropLast_append_of_ne_nil (List.cons_ne_nil i ys)]
  exact List.mem_append_left _ hj

theorem EndsOnce.tail {xs ys : List Inst} {i : Inst} (hs : EndsOnce (xs ++ i :: ys)) : EndsOnce (i :: ys) := by
  obtain ⟨zs, t, he, ht, hzs⟩ := hs
  have hlast : zs = xs ++ (i :: ys).dropLast := by
    rw [← List.dropLast_append_of_ne_nil (List.cons_ne_nil i ys), he, List.dropLast_concat]
  have hend : (i :: ys).getLast? = some t := by
    have hall : (xs ++ i :: ys).getLast? = some t := by rw [he, List.getLast?_concat]
    rwa [List.getLast?_append_of_ne_nil _ (List.cons_ne_nil i ys)] at hall
  refine ⟨(i :: ys).dropLast, t, (List.dropLast_append_getLast? t hend).symm, ht, fun j hj => hzs j ?_⟩
  rw [hlast]
  exact List.mem_append_right _ hj

/- In a homogeneous block without mixed PHIs there is nothing to cut, and mixed PHIs are cut off always. -/
theorem blockPoints_nil_iff {c : Block} (hphis : PhisFirst c.insts) (hpad : ∀ i ∈ c.insts, i.op.isEHPad = false)
    (hend : EndsOnce c.insts) (hom : Homogeneous info c.insts) : blockPoints info c = [] ↔ ¬MixedPHIs info c := by
  have hbr : ∀ p : Inst, p.isPHI = true → p.isUncondBr = false := by
    intro p hp
    simp only [Inst.isPHI, decide_eq_true_eq] at hp
    simp [Inst.isUncondBr, hp]
  obtain ⟨xs, t, hins, ht, hxs⟩ := hend
  constructor
  · intro hnil
    have htm : t ∈ c.insts := hins ▸ List.mem_append_right xs (List.mem_singleton_self t)
    have hmode := mode_of_blockPoints (hasInsertionPt_of_terminator htm ht (hpad t htm)) hnil
    rintro ⟨p, hp, q, hq, hne⟩
    refine hne ?_
    rw [hmode p (List.takeWhile_subset _ hp) (hbr p (phis_isPHI p hp)),
      hmode q (List.takeWhile_subset _ hq) (hbr q (phis_isPHI q hq))]
  · intro hmix
    refine blockPoints_of_mode (m := headMode info c.insts) rfl ?_
    obtain ⟨ps, rest, he, hps, hrest⟩ := hphis
    have hall : c.phis = ps := by rw [Block.phis, he, takeWhile_phis hps hrest]
    have hsame : ∀ p ∈ ps, ∀ q ∈ ps, getMode info p = getMode info q := by
      intro p hp q hq
      by_contra hne
      exact hmix ⟨p, hall ▸ hp, q, hall ▸ hq, hne⟩
    intro i hi hib
    cases hps' : ps with
    | cons p ps' =>
      have hpm : p ∈ ps := hps' ▸ List.mem_cons_self ..
      have hhead : headMode info c.insts = getMode info p := by rw [he, hps']; rfl
      rw [hhead]
      rcases List.mem_append.mp (he ▸ hi) with him | him
      · exact hsame i him p hpm
      · have hbody : Inst.isBody i = true := by simp [Inst.isBody, hrest i him, hib]
        exact (hom.phi i hi p (he ▸ List.mem_append_left rest hpm) hbody (hps p hpm)).symm
    | nil =>
      rw [he, hps', List.nil_append] at hi
      rw [he, hps', List.nil_append] at hom hins ⊢
      cases hr : rest with
      | nil =>
        rw [hr] at hi
        cases hi
      | cons x rs =>
        rw [hr] at hi hom hins hrest
        have hbody : ∀ j ∈ x :: rs, j.isUncondBr = false → Inst.isBody j = true := by
          intro j hj hjb
          simp [Inst.isBody, hrest j hj, hjb]
        by_cases hxb : x.isUncondBr = true
        · -- a branch in front is the whole block
          have hterm : x.op.isTerminator = true := by
            simp only [Inst.isUncondBr, Bool.and_eq_true, decide_eq_true_eq] at hxb
            rw [hxb.1]
            rfl
          cases xs with
          | nil =>
            obtain ⟨rfl, rfl⟩ := List.cons.inj hins
            rw [List.mem_singleton.mp hi, hxb] at hib
            cases hib
          | cons y ys =>
            obtain ⟨rfl, -⟩ := List.cons.inj hins
            rw [hxs x (List.mem_cons_self ..)] at hterm
            cases hterm
        · rw [Bool.not_eq_true] at hxb
          exact hom.body i hi x (List.mem_cons_self ..) (hbody i hi hib) (hbody x (List.mem_cons_self ..) hxb)

end Blocks

section Run
variable {M N : Module} {LI LI' : LoopInfo}

theorem phis_core {b c : Block} (h : c.insts.map Inst.core = b.insts.map Inst.core) :
    c.phis.map Inst.core = b.phis.map Inst.core := by
  have key : ∀ x : Block, x.phis.map Inst.core = (x.insts.map Inst.core).takeWhile Inst.isPHI := by
    intro x
    simp only [Block.phis, List.takeWhile_map, Function.comp_def, core_isPHI]
  rw [key, key, h]

/- What stops the PHIs does not matter. -/
theorem takeWhile_stop {xs ys zs : List Inst} {i j : Inst} (hi : i.isPHI = false) (hj : j.isPHI = false) :
    (xs ++ i :: ys).takeWhile Inst.isPHI = (xs ++ j :: zs).takeWhile Inst.isPHI := by
  induction xs with
  | nil => simp [hi, hj]
  | cons x xs ih =>
    rw [List.cons_append, List.cons_append, List.takeWhile_cons, List.takeWhile_cons, ih]

/- `N` comes from `M` by splits: branches are new, PHIs stand where they stood, and old blocks are in the loops they
were in. -/
structure CutFrom (M : Module) (LI : LoopInfo) (N : Module) (LI' : LoopInfo) : Prop where
  inv : SplitInv N LI'
  length : LI'.loops.length = LI.loops.length
  nextId : M.nextId ≤ N.nextId
  ended : ∀ c ∈ N.blocks, EndsOnce c.insts
  insts : ∀ c ∈ N.blocks, ∀ i ∈ c.insts, i.isUncondBr = true ∨ ∃ j ∈ M.insts, j.core = i.core
  phis : ∀ c ∈ N.blocks, c.phis = [] ∨ ∃ b ∈ M.blocks, b.id = c.id ∧ c.phis.map Inst.core = b.phis.map Inst.core
  kept : ∀ b ∈ M.blocks, ∃ c ∈ N.blocks, c.id = b.id ∧ c.phis.map Inst.core = b.phis.map Inst.core
  loop : ∀ l < LI.loops.length, ∀ b ∈ M.blocks, b.id ∈ LI'.blocksOf l ↔ b.id ∈ LI.blocksOf l

theorem CutFrom.refl (h : SplitInv M LI) (hend : ∀ b ∈ M.blocks, EndsOnce b.insts) : CutFrom M LI M LI where
  inv := h
  length := rfl
  nextId := Nat.le_refl _
  ended := hend
  insts := fun c hc i hi => .inr ⟨i, List.mem_flatMap.mpr ⟨c, hc, hi⟩, rfl⟩
  phis := fun c hc => .inr ⟨c, hc, rfl, rfl⟩
  kept := fun b hb => ⟨b, hb, rfl, rfl⟩
  loop := fun _ _ _ _ => Iff.rfl

theorem CutFrom.split (h : CutFrom M LI N LI') (hM : M.Ids) {b : Block} (hb : b ∈ N.blocks) {i : Inst} (hi : i ∈ b.insts)
    (hphi : i.isPHI = false) (hpad : i.op.isEHPad = false) :
    CutFrom M LI (N.splitBlock b.id i.id).1 (LI'.splitUpdate b.id N.nextId) := by
  obtain ⟨xs, ys, hsplit⟩ := List.append_of_mem hi
  have hex := splitBlock_exact h.inv.ids hb hsplit hphi hpad
  have hend := h.ended b hb
  have hinsts := h.insts b hb
  have hphis : (headHalf b xs N.nextId).phis = b.phis := by
    rw [Block.phis, Block.phis, hsplit]
    exact takeWhile_stop rfl hphi
  rw [hsplit] at hend hinsts
  constructor
  · exact splitBlock_splitInv h.inv hb i.id
  · exact (LoopInfo.splitUpdate_length ..).trans h.length
  · exact Nat.le_succ_of_le h.nextId
  · intro c hc
    obtain ⟨c₀, rfl, hc₀⟩ := (hex c).mp hc
    refine EndsOnce.of_core ?_ (redirectIn_core ..)
    rcases hc₀ with ⟨hc₀, -⟩ | rfl | rfl
    · exact h.ended c₀ hc₀
    · exact hend.head N.nextId N.nextId
    · exact hend.tail
  · intro c hc j hj
    obtain ⟨c₀, rfl, hc₀⟩ := (hex c).mp hc
    obtain ⟨k, hk, hkj⟩ := mem_of_core (redirectIn_core ..).symm hj
    have hold : k.isUncondBr = true ∨ ∃ m ∈ M.insts, m.core = k.core := by
      rcases hc₀ with ⟨hc₀, -⟩ | rfl | rfl
      · exact h.insts c₀ hc₀ k hk
      · rcases List.mem_append.mp hk with hk | hk
        · exact hinsts k (List.mem_append_left _ hk)
        · rw [List.mem_singleton.mp hk]
          exact .inl rfl
      · exact hinsts k (List.mem_append_right _ hk)
    rcases hold with hbr | ⟨m, hm, hmk⟩
    · rw [← core_isUncondBr, hkj, core_isUncondBr] at hbr
      exact .inl hbr
    · exact .inr ⟨m, hm, hmk.trans hkj⟩
  · intro c hc
    obtain ⟨c₀, rfl, hc₀⟩ := (hex c).mp hc
    have hcore := phis_core (redirectIn_core b.succs b.id N.nextId c₀)
    rw [redirectIn_id, hcore]
    have hsame : c₀.phis = [] ∨ ∃ d ∈ N.blocks, d.id = c₀.id ∧ c₀.phis = d.phis := by
      rcases hc₀ with ⟨hc₀, -⟩ | rfl | rfl
      · exact .inr ⟨c₀, hc₀, rfl, rfl⟩
      · exact .inr ⟨b, hb, rfl, hphis⟩
      · exact .inl (List.takeWhile_cons_of_neg (by rw [hphi]; exact Bool.false_ne_true))
    have hnil : (c₀.redirectIn b.succs b.id N.nextId).phis = [] ↔ c₀.phis = [] := by
      rw [← List.map_eq_nil_iff, hcore, List.map_eq_nil_iff]
    rw [hnil]
    rcases hsame with hnone | ⟨d, hd, hid, he⟩
    · exact .inl hnone
    · rw [he, ← hid]
      exact h.phis d hd
  · intro d hd
    obtain ⟨c, hc, hid, he⟩ := h.kept d hd
    by_cases hcb : c.id = b.id
    · obtain rfl := List.inj_on_of_nodup_map h.inv.ids.blocks_nodup hc hb hcb
      refine ⟨_, (hex _).mpr ⟨headHalf c xs N.nextId, rfl, .inr (.inl rfl)⟩, ?_, ?_⟩
      · rw [redirectIn_id]
        exact hid
      · rw [phis_core (redirectIn_core ..), hphis, he]
    · refine ⟨_, (hex _).mpr ⟨c, rfl, .inl ⟨hc, hcb⟩⟩, ?_, ?_⟩
      · rw [redirectIn_id, hid]
      · rw [phis_core (redirectIn_core ..), he]
  · intro l hl d hd
    have hne : d.id ≠ N.nextId := Nat.ne_of_lt (Nat.lt_of_lt_of_le (hM.blocks_lt d hd) h.nextId)
    rw [LoopInfo.splitUpdate_blocksOf h.inv.loops _ _ (h.length ▸ hl), h.loop l hl d hd]
    constructor
    · rintro (hin | ⟨he, -⟩)
      · exact hin
      · exact absurd he hne
    · exact .inl

theorem Splits.cutFrom {s t : Module × LoopInfo} (h : Splits s t) (hinv : SplitInv s.1 s.2)
    (hend : ∀ b ∈ s.1.blocks, EndsOnce b.insts) : CutFrom s.1 s.2 t.1 t.2 := by
  induction h with
  | refl => exact .refl hinv hend
  | tail _ hstep ih =>
    obtain ⟨b, hb, i, hi, hphi, hpad, rfl⟩ := hstep
    exact ih.split hinv.ids hb hi hphi hpad

end Run

section Pass
variable {M N : Module} {LI LI' : LoopInfo}

/- A later information knows the instructions of `M` as before. -/
structure Recomputed (M : Module) (infos infos' : LoopId → Option IteratorInfo) : Prop where
  known : ∀ l info, infos l = some info →
    ∃ info', infos' l = some info' ∧ ∀ i ∈ M.insts, info'.isIterator i.id = info.isIterator i.id
  unknown : ∀ l, infos l = none → infos' l = none

variable {infos infos' : LoopId → Option IteratorInfo} {info info' : IteratorInfo}

theorem getMode_old (h : ∀ i ∈ M.insts, info'.isIterator i.id = info.isIterator i.id) {i j : Inst} (hj : j ∈ M.insts)
    (he : j.core = i.core) : getMode info' i = getMode info j := by
  rw [getMode, getMode, ← id_of_core he, h j hj]

/- Mixed PHIs are mixed for the later information, in the block they stood in. -/
theorem mixedPHIs_iff (h : ∀ i ∈ M.insts, info'.isIterator i.id = info.isIterator i.id) {b c : Block} (hb : b ∈ M.blocks)
    (he : c.phis.map Inst.core = b.phis.map Inst.core) : MixedPHIs info' c ↔ MixedPHIs info b := by
  have hold : ∀ q ∈ b.phis, q ∈ M.insts := fun q hq => List.mem_flatMap.mpr ⟨b, hb, List.takeWhile_subset _ hq⟩
  constructor
  · rintro ⟨p, hp, q, hq, hne⟩
    obtain ⟨p', hp', hpe⟩ := mem_of_core he.symm hp
    obtain ⟨q', hq', hqe⟩ := mem_of_core he.symm hq
    rw [getMode_old h (hold p' hp') hpe, getMode_old h (hold q' hq') hqe] at hne
    exact ⟨p', hp', q', hq', hne⟩
  · rintro ⟨p, hp, q, hq, hne⟩
    obtain ⟨p', hp', hpe⟩ := mem_of_core he hp
    obtain ⟨q', hq', hqe⟩ := mem_of_core he hq
    refine ⟨p', hp', q', hq', ?_⟩
    rwa [getMode_old h (hold p hp) hpe.symm, getMode_old h (hold q hq) hqe.symm]

/- The branches made by the splits do not matter to homogeneity. -/
theorem CutFrom.homogeneous (hcut : CutFrom M LI N LI') (h : ∀ i ∈ M.insts, info'.isIterator i.id = info.isIterator i.id)
    {c : Block} (hc : c ∈ N.blocks) (hom : Homogeneous info c.insts) : Homogeneous info' c.insts := by
  have hsame : ∀ i ∈ c.insts, i.isUncondBr = false → getMode info' i = getMode info i := by
    intro i hi hbr
    rcases hcut.insts c hc i hi with h' | ⟨j, hj, he⟩
    · rw [hbr] at h'
      cases h'
    · rw [getMode_old h hj he]
      exact getMode_of_core he
  have hbody : ∀ i : Inst, Inst.isBody i = true → i.isUncondBr = false := by
    intro i hi
    simp only [Inst.isBody, Bool.and_eq_true, Bool.not_eq_true'] at hi
    exact hi.2
  have hphi : ∀ p : Inst, p.isPHI = true → p.isUncondBr = false := by
    intro p hp
    simp only [Inst.isPHI, decide_eq_true_eq] at hp
    simp [Inst.isUncondBr, hp]
  constructor
  · intro i hi j hj h₁ h₂
    rw [hsame i hi (hbody i h₁), hsame j hj (hbody j h₂)]
    exact hom.body i hi j hj h₁ h₂
  · intro i hi p hp h₁ h₂
    rw [hsame i hi (hbody i h₁), hsame p hp (hphi p h₂)]
    exact hom.phi i hi p hp h₁ h₂

/- A run of the loop over the loops that finds nothing. -/
theorem separateLoops_quiet_iff (addr : BlockId → Nat) (infos : LoopId → Option IteratorInfo) (ls : List LoopId) :
    ls.foldlM (separateLoop addr infos) (false, M, LI) = some (false, M, LI) ↔ ∀ l ∈ ls, ∀ info, infos l = some info →
      ∃ found, findPartitionPoints M (LI.blocksOf l) info ∅ [] = some found ∧ found.2 = [] := by
  have hround : ∀ l, separateLoop addr infos (false, M, LI) l = some (false, M, LI) ↔ ∀ info, infos l = some info →
      ∃ found, findPartitionPoints M (LI.blocksOf l) info ∅ [] = some found ∧ found.2 = [] := by
    intro l
    unfold separateLoop
    cases infos l with
    | none => exact ⟨fun _ info hi => (by cases hi), fun _ => rfl⟩
    | some info =>
      simp only [Option.some.injEq, forall_eq', Option.map_eq_some_iff]
      constructor
      · intro ⟨found, hfind, hst⟩
        refine ⟨found, hfind, ?_⟩
        by_contra hne
        rw [if_neg (by rwa [List.isEmpty_iff])] at hst
        exact Bool.noConfusion (congrArg Prod.fst hst)
      · intro ⟨found, hfind, hnil⟩
        exact ⟨found, hfind, if_pos (List.isEmpty_iff.mpr hnil)⟩
  induction ls with
  | nil => exact ⟨fun _ l hl => absurd hl List.not_mem_nil, fun _ => rfl⟩
  | cons l ls ih =>
    rw [List.foldlM_cons, List.forall_mem_cons]
    constructor
    · intro hrun
      obtain ⟨s, hs, hrest⟩ := Option.bind_eq_some_iff.mp hrun
      obtain rfl := separateLoops_unchanged ls hrest rfl
      exact ⟨(hround l).mp hs, ih.mp hrest⟩
    · intro ⟨hl, hrest⟩
      exact Option.bind_eq_some_iff.mpr ⟨_, (hround l).mpr hl, ih.mpr hrest⟩

/- The pass run again on what it made changes nothing exactly when no block of a loop has PHIs of both modes. -/
theorem perform_again_iff (addr addr' : BlockId → Nat) (whiteList : Option (List String)) (name : String)
    (hinv : SplitInv M LI) (hend : ∀ b ∈ M.blocks, EndsOnce b.insts) (hlisted : ∀ ws, whiteList = some ws → name ∈ ws)
    (hinfos : Recomputed M infos infos') :
    ∃ r, perform addr infos false whiteList name M LI = some r ∧
      (perform addr' infos' false whiteList name r.2.1 r.2.2 = some (false, r.2) ↔
        ∀ l < LI.loops.length, ∀ info, infos l = some info →
          ∀ b ∈ M.blocks, b.id ∈ LI.blocksOf l → ¬MixedPHIs info b) := by
  have hpts : ∀ b ∈ M.blocks, b.HasInsertionPt := by
    intro b hb
    obtain ⟨xs, t, hins, ht, -⟩ := hend b hb
    have hm : t ∈ b.insts := hins ▸ List.mem_append_right xs (List.mem_singleton_self t)
    exact hasInsertionPt_of_terminator hm ht (hinv.noEHPad b hb t hm)
  obtain ⟨r, hr⟩ := perform_exists addr infos false whiteList name hinv hpts
  refine ⟨r, hr, ?_⟩
  have hcut : CutFrom M LI r.2.1 r.2.2 := (perform_splits hinv hr).cutFrom hinv hend
  rw [perform_listed addr infos hlisted] at hr
  obtain ⟨-, -, hhom⟩ := separateLoops_run hinv (Nat.le_refl _) hr
  obtain ⟨_, N, LI'⟩ := r
  rw [perform_listed addr' infos' hlisted, separateLoops_quiet_iff]
  dsimp only at hcut hhom ⊢
  -- what a loop of the second run finds
  have hloop : ∀ l < LI.loops.length, ∀ info, infos l = some info → ∀ info', infos' l = some info' →
      ((∃ found, findPartitionPoints N (LI'.blocksOf l) info' ∅ [] = some found ∧ found.2 = []) ↔
        ∀ b ∈ M.blocks, b.id ∈ LI.blocksOf l → ¬MixedPHIs info b) := by
    intro l hl info hi info' hi'
    obtain ⟨info'', hi'', hold⟩ := hinfos.known l info hi
    obtain rfl : info'' = info' := Option.some.inj (hi''.symm.trans hi')
    have hnd : ((N.region (LI'.blocksOf l)).map Block.id).Nodup :=
      (region_ids_sublist N _).nodup (hcut.inv.loops.blocks_nodup l (hcut.length ▸ hl))
    have hblock : ∀ c ∈ N.blocks, c.id ∈ LI'.blocksOf l →
        (c.HasInsertionPt ∧ blockPoints info'' c = [] ↔ ¬MixedPHIs info'' c) := by
      intro c hc hcl
      obtain ⟨xs, t, hins, ht, -⟩ := hcut.ended c hc
      have hm : t ∈ c.insts := hins ▸ List.mem_append_right xs (List.mem_singleton_self t)
      rw [and_iff_right (hasInsertionPt_of_terminator hm ht (hcut.inv.noEHPad c hc t hm))]
      exact blockPoints_nil_iff (hcut.inv.phisFirst c hc) (hcut.inv.noEHPad c hc) (hcut.ended c hc)
        (hcut.homogeneous hold hc (hhom l hl info hi c hc hcl))
    rw [findPartitionPoints_nil_iff hnd]
    constructor
    · intro hnone b hb hbl
      obtain ⟨c, hc, hid, he⟩ := hcut.kept b hb
      have hcl : c.id ∈ LI'.blocksOf l := hid ▸ (hcut.loop l hl b hb).mpr hbl
      rw [← mixedPHIs_iff hold hb he]
      exact (hblock c hc hcl).mp (hnone c ((mem_region hcut.inv.ids).mpr ⟨hc, hcl⟩))
    · intro hnone c hc
      obtain ⟨hc, hcl⟩ := (mem_region hcut.inv.ids).mp hc
      rw [hblock c hc hcl]
      rcases hcut.phis c hc with hnil | ⟨b, hb, hid, he⟩
      · rintro ⟨p, hp, -⟩
        rw [hnil] at hp
        cases hp
      · rw [mixedPHIs_iff hold hb he]
        exact hnone b hb ((hcut.loop l hl b hb).mp (hid ▸ hcl))
  constructor
  · intro hnone l hl info hi
    obtain ⟨info', hi', -⟩ := hinfos.known l info hi
    exact (hloop l hl info hi info' hi').mp (hnone l (List.mem_range.mpr (hcut.length ▸ hl)) info' hi')
  · intro hnone l hl info' hi'
    have hl' : l < LI.loops.length := hcut.length ▸ List.mem_range.mp hl
    cases hi : infos l with
    | none =>
      rw [hinfos.unknown l hi] at hi'
      cases hi'
    | some info => exact (hloop l hl' info hi info' hi').mpr (hnone l hl' info hi)

end Pass

/- `counterInfo` with the branches of the splits taken for iterator instructions. -/
def branchesInfo : IteratorInfo := ⟨fun i => i ∈ [21, 23, 24, 30, 31], true⟩

theorem perform_again_counterLoop :
    ∃ r, perform id (fun _ => some counterInfo) false none "f" counterLoop counterLoops = some r ∧
      perform id (fun _ => some branchesInfo) false none "f" r.2.1 r.2.2 = some (false, r.2) := by
  have hend : ∀ b ∈ counterLoop.blocks, EndsOnce b.insts := by
    have hall : ∀ b ∈ counterLoop.blocks, ∃ t ∈ b.insts.getLast?, t.op.isTerminator = true ∧
        ∀ i ∈ b.insts.dropLast, i.op.isTerminator = false := by decide
    intro b hb
    obtain ⟨t, hlast, ht, hfront⟩ := hall b hb
    exact ⟨b.insts.dropLast, t, (List.dropLast_append_getLast? t hlast).symm, ht, hfront⟩
  have hinfos : Recomputed counterLoop (fun _ => some counterInfo) (fun _ => some branchesInfo) := by
    constructor
    · rintro l info ⟨⟩
      exact ⟨branchesInfo, rfl, by decide⟩
    · intro l hl
      cases hl
  have hmixed : ∀ b ∈ counterLoop.blocks, ¬MixedPHIs counterInfo b := by decide
  obtain ⟨r, hr, hagain⟩ := perform_again_iff id id none "f" counterLoop_splitInv hend (fun ws hws => by cases hws) hinfos
  refine ⟨r, hr, hagain.mpr ?_⟩
  rintro l - info ⟨⟩ b hb -
  exact hmixed b hb

end Atrox
