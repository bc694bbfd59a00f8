import Atrox.Transforms.SplitChains

/-!
# Labels, cuts and a second run

What `Modes` says of the blocks of a separated loop, where the blocks are cut, and
when nothing is left to cut.
-/

namespace Atrox
open IR

section Modes
variable (info : IteratorInfo)

/- PHIs of differing modes. -/
def MixedPHIs (b : Block) : Prop := ∃ p ∈ b.phis, ∃ q ∈ b.phis, getMode info p ≠ getMode info q

/- The PHIs and the EH pad have one mode. -/
def OneModeFront (b : Block) : Prop := ∀ p ∈ front b, ∀ q ∈ front b, getMode info p = getMode info q

instance (b : Block) : Decidable (MixedPHIs info b) :=
  inferInstanceAs (Decidable (∃ p ∈ b.phis, ∃ q ∈ b.phis, getMode info p ≠ getMode info q))

instance (b : Block) : Decidable (OneModeFront info b) :=
  inferInstanceAs (Decidable (∀ p ∈ front b, ∀ q ∈ front b, getMode info p = getMode info q))

theorem headMode_append {xs ys : List Inst} (hne : xs ≠ []) : headMode info (xs ++ ys) = headMode info xs := by
  cases xs with
  | nil => exact absurd rfl hne
  | cons x xs => rfl

theorem headMode_core {is js : List Inst} (h : is.map Inst.core = js.map Inst.core) :
    headMode info is = headMode info js := by
  cases is with
  | nil =>
    obtain rfl : js = [] := List.map_eq_nil_iff.mp h.symm
    rfl
  | cons i is =>
    obtain ⟨j, js', rfl, hj, -⟩ := List.map_eq_cons_iff.mp h.symm
    rw [headMode, headMode, ← getMode_core info i, ← hj, getMode_core]

/- A list of one mode is a list of the mode of its head. -/
theorem all_headMode (xs ys : List Inst) : (xs.all fun i => getMode info i = headMode info (xs ++ ys)) = true ↔
    ∀ p ∈ xs, ∀ q ∈ xs, getMode info p = getMode info q := by
  cases xs with
  | nil => simp
  | cons x xs =>
    rw [List.all_eq_true]
    constructor
    · intro h p hp q hq
      have h1 := h p hp
      have h2 := h q hq
      simp only [decide_eq_true_eq] at h1 h2
      rw [h1, h2]
    · intro h p hp
      exact decide_eq_true (h p hp x (List.mem_cons_self ..))

theorem frontAgrees_iff (b : Block) : frontAgrees info b = true ↔ OneModeFront info b := by
  rw [frontAgrees]
  conv_lhs => rw [← front_behind b]
  exact all_headMode info _ _

theorem phisAgree_iff (b : Block) : phisAgree info b = false ↔ MixedPHIs info b := by
  have hsplit : b.insts = b.phis ++ b.insts.dropWhile Inst.isPHI := List.takeWhile_append_dropWhile.symm
  have hall := all_headMode info b.phis (b.insts.dropWhile Inst.isPHI)
  rw [← hsplit] at hall
  rw [← Bool.not_eq_true, phisAgree, hall, MixedPHIs]
  push Not
  rfl

theorem changePoints_of_body {m : Mode} {is : List Inst}
    (h : ∀ i ∈ is, i.isUncondBr = false → getMode info i = m) : changePoints info m is = [] := by
  induction is with
  | nil => rfl
  | cons x xs ih =>
    rw [changePoints, if_neg]
    · exact ih fun i hi => h i (List.mem_cons_of_mem _ hi)
    · rintro ⟨hne, hbr⟩
      exact hne (h x (List.mem_cons_self ..) hbr).symm

end Modes

section Exact
variable {info : IteratorInfo}

/- What a block holds: its piece, with or without the branch to the next block. -/
def JoinedPiece (p is : List Inst) : Prop := is = p ∨ ∃ n d, is = p ++ [Inst.uncondBr n d]

theorem Joined.piece {p is : List Inst} {cs : List BlockId} (h : Joined p cs is) : JoinedPiece p is := by
  cases cs with
  | nil => exact .inl h
  | cons d cs =>
    obtain ⟨n, hn⟩ := h
    exact .inr ⟨n, d, hn⟩

/- An instruction of such a block is one of the piece, up to PHI edges, or the branch. -/
theorem JoinedPiece.mem {p is js : List Inst} (h : JoinedPiece p is) (hcore : js.map Inst.core = is.map Inst.core)
    {j : Inst} (hj : j ∈ js) : j.isUncondBr = true ∨ ∃ i ∈ p, i.core = j.core := by
  obtain ⟨i, hi, he⟩ := mem_of_core hcore.symm hj
  rcases h with rfl | ⟨n, d, rfl⟩
  · exact .inr ⟨i, hi, he⟩
  · rcases List.mem_append.mp hi with hi | hi
    · exact .inr ⟨i, hi, he⟩
    · have hbr : i.isUncondBr = true := by
        rw [List.mem_singleton.mp hi]
        rfl
      rw [← core_isUncondBr, he, core_isUncondBr] at hbr
      exact .inl hbr

theorem JoinedPiece.mem_of {p is js : List Inst} (h : JoinedPiece p is) (hcore : js.map Inst.core = is.map Inst.core)
    {i : Inst} (hi : i ∈ p) : ∃ j ∈ js, j.core = i.core := by
  refine mem_of_core hcore ?_
  rcases h with rfl | ⟨n, d, rfl⟩
  · exact hi
  · exact List.mem_append_left _ hi

theorem getMode_of_core {i j : Inst} (h : i.core = j.core) : getMode info i = getMode info j := by
  rw [← getMode_core info i, h, getMode_core]

/- The blocks of the rest of a chain, with their labels. -/
theorem links_tail {M : Module} {modes : BlockModeMapTy} {cs : List BlockId} {rest : List Segment}
    (hlinks : cs = [] ∧ rest.map Prod.snd = [] ∨ Links M cs (rest.map Prod.snd))
    (hlabels : List.Forall₂ (fun c q => modes.lookup c = some q.1.2) cs rest) :
    (∀ c ∈ cs, ∃ q ∈ rest, modes.lookup c = some q.1.2 ∧ ∃ is, JoinedPiece q.2 is ∧ Holds M c is) ∧
      ∀ q ∈ rest, ∃ c ∈ cs, modes.lookup c = some q.1.2 ∧ ∃ is, JoinedPiece q.2 is ∧ Holds M c is := by
  induction hlabels with
  | nil => exact ⟨fun c hc => absurd hc List.not_mem_nil, fun q hq => absurd hq List.not_mem_nil⟩
  | @cons c q cs rest hc _ ih =>
    rcases hlinks with ⟨he, -⟩ | hlinks
    · cases he
    · obtain ⟨⟨is, hj, hm⟩, hrest⟩ := links_cons hlinks
      obtain ⟨h1, h2⟩ := ih hrest
      have hthis : modes.lookup c = some q.1.2 ∧ ∃ is, JoinedPiece q.2 is ∧ Holds M c is :=
        ⟨hc, is, hj.piece, hm⟩
      constructor
      · intro d hd
        rcases List.mem_cons.mp hd with rfl | hd
        · exact ⟨q, List.mem_cons_self .., hthis⟩
        · obtain ⟨q', hq', h'⟩ := h1 d hd
          exact ⟨q', List.mem_cons_of_mem _ hq', h'⟩
      · intro q' hq'
        rcases List.mem_cons.mp hq' with rfl | hq'
        · exact ⟨c, List.mem_cons_self .., hthis⟩
        · obtain ⟨d, hd, h'⟩ := h2 q' hq'
          exact ⟨d, List.mem_cons_of_mem _ hd, h'⟩

theorem holds_unique {M : Module} (hM : M.Ids) {c : Block} (hc : c ∈ M.blocks) {is : List Inst}
    (h : Holds M c.id is) : c.insts.map Inst.core = is.map Inst.core := by
  obtain ⟨x, hx, hid, he⟩ := h
  obtain rfl := List.inj_on_of_nodup_map hM.blocks_nodup hx hc hid
  exact he

variable {M₀ M : Module} {LI₀ LI : LoopInfo} {l : LoopId} {st : SplitState} {ch : BlockId → Chain}

/- A block of the loop is the first of a chain of a block of the loop, or holds a later piece of it. -/
theorem Chains.block_cases (h : Chains M₀ LI₀ st ch) (hl : l < LI₀.loops.length) {c : Block}
    (hc : c ∈ st.M.blocks) (hcl : c.id ∈ st.LI.blocksOf l) : ∃ b ∈ M₀.blocks, b.id ∈ LI₀.blocksOf l ∧
      ((c.id = b.id ∧ st.modes.lookup c.id = (ch b.id).label ∧
          ∃ is, JoinedPiece (ch b.id).first is ∧ c.insts.map Inst.core = is.map Inst.core) ∨
        ∃ q ∈ (ch b.id).rest, st.modes.lookup c.id = some q.1.2 ∧
          ∃ is, JoinedPiece q.2 is ∧ c.insts.map Inst.core = is.map Inst.core) := by
  have hm := h.perm.mem_iff.mp (List.mem_map_of_mem hc)
  obtain ⟨b, hb, hcb⟩ := List.mem_flatMap.mp hm
  have hof := h.chain b hb
  refine ⟨b, hb, (hof.loop c.id hcb l hl).mp hcl, ?_⟩
  obtain ⟨⟨is, hj, hhead⟩, htail⟩ := links_cons hof.links
  rcases List.mem_cons.mp hcb with hcb | hcb
  · refine .inl ⟨hcb, ?_, is, hj.piece, holds_unique h.ids hc (hcb ▸ hhead)⟩
    rw [hcb]
    exact hof.label
  · obtain ⟨q, hq, hlab, is, hj, hm⟩ := (links_tail htail hof.labels).1 c.id hcb
    exact .inr ⟨q, hq, hlab, is, hj, holds_unique h.ids hc hm⟩

/- The first block of a chain, and the block of each later piece. -/
theorem Chains.head_block (h : Chains M₀ LI₀ st ch) {b : Block} (hb : b ∈ M₀.blocks) :
    ∃ c ∈ st.M.blocks, c.id = b.id ∧ ∃ is, Joined (ch b.id).first (ch b.id).tail is ∧
      c.insts.map Inst.core = is.map Inst.core := by
  obtain ⟨⟨is, hj, c, hc, hid, he⟩, -⟩ := links_cons (h.chain b hb).links
  exact ⟨c, hc, hid, is, hj, he⟩

theorem Chains.piece_block (h : Chains M₀ LI₀ st ch) {b : Block} (hb : b ∈ M₀.blocks) {q : Segment}
    (hq : q ∈ (ch b.id).rest) : ∃ c ∈ st.M.blocks, c.id ∈ (ch b.id).tail ∧ st.modes.lookup c.id = some q.1.2 ∧
      ∃ is, JoinedPiece q.2 is ∧ c.insts.map Inst.core = is.map Inst.core := by
  obtain ⟨-, htail⟩ := links_cons (h.chain b hb).links
  obtain ⟨d, hd, hlab, is, hj, c, hc, rfl, he⟩ := (links_tail htail (h.chain b hb).labels).2 q hq
  exact ⟨c, hc, hd, hlab, is, hj, he⟩

end Exact

section Labels

/- Every block of the loop has a label, and the label is the mode of whatever it holds
besides PHIs and unconditional branches. -/
def LabelsRight (info : IteratorInfo) (l : LoopId) (st : SplitState) : Prop :=
  ∀ c ∈ st.M.blocks, c.id ∈ st.LI.blocksOf l → ∃ m, st.modes.lookup c.id = some m ∧
    ∀ i ∈ c.insts, i.isPHI = false → i.isUncondBr = false → getMode info i = m

instance (info : IteratorInfo) (l : LoopId) (st : SplitState) : Decidable (LabelsRight info l st) :=
  decidable_of_iff (∀ c ∈ st.M.blocks, c.id ∈ st.LI.blocksOf l → ∃ m ∈ (st.modes.lookup c.id).toList,
    ∀ i ∈ c.insts, i.isPHI = false → i.isUncondBr = false → getMode info i = m) (by
    simp only [LabelsRight, Option.mem_toList])

/- PHIs that differ are harmless when only an unconditional branch stands behind them. -/
def OnlyBranchBehind (info : IteratorInfo) (b : Block) : Prop :=
  MixedPHIs info b ∧ ∃ i, behind b = [i] ∧ i.isUncondBr = true ∧
    ∀ e ∈ front b, e.isPHI = false → getMode info e = getMode info i

variable {info : IteratorInfo} {M : Module} {LI : LoopInfo} {l : LoopId}

theorem not_phi_of_pad {e : Inst} (h : e.op.isEHPad = true) : e.isPHI = false := by
  by_contra hphi
  simp only [Inst.isPHI, Bool.not_eq_false, decide_eq_true_eq] at hphi
  rw [hphi] at h
  cases h

/- Behind a front of one mode every piece has the mode of its head. -/
theorem Segments.one_mode {b : Block} (hf : frontAgrees info b = true) {first : List Inst} {rest : List Segment}
    (h : Segments info b first rest) :
    (∀ i ∈ first, i.isUncondBr = false → getMode info i = headMode info b.insts) ∧
      ∀ q ∈ rest, q.2 ≠ [] ∧ headMode info q.2 = q.1.2 ∧
        ∀ i ∈ q.2, i.isUncondBr = false → getMode info i = q.1.2 := by
  cases h with
  | agree r _ hr =>
    constructor
    · intro i hi hbr
      rcases List.mem_append.mp hi with hi | hi
      · simpa using List.all_eq_true.mp hf i hi
      · exact runs_first info _ _ i (hr ▸ hi) hbr
    · intro q hq
      obtain ⟨i, ys, hcons, -, hpt⟩ := runs_heads info _ _ q (hr ▸ hq)
      refine ⟨by simp [hcons], ?_, runs_modes info _ _ q (hr ▸ hq)⟩
      rw [hcons, hpt]
      rfl
  | pad e r hp he hpad hne hr =>
    have hmem : e ∈ front b := he ▸ List.mem_append_right _ (List.mem_singleton_self e)
    have hmode : getMode info e = headMode info b.insts := by simpa using List.all_eq_true.mp hf e hmem
    exact absurd hmode.symm hne
  | mixed i is r hp hi hr =>
    rw [phisAgree_of_front info hf] at hp
    cases hp

/- Labels of the pieces of one block. -/
theorem Segments.labels_iff {b : Block} (hb : b.Shape) {first : List Inst} {rest : List Segment}
    (h : Segments info b first rest) :
    ((∀ i ∈ first, i.isPHI = false → i.isUncondBr = false → getMode info i = frontLabel info b) ∧
      ∀ q ∈ rest, ∀ i ∈ q.2, i.isPHI = false → i.isUncondBr = false → getMode info i = q.1.2) ↔
      OneModeFront info b ∨ OnlyBranchBehind info b := by
  have hseg := h
  cases h with
  | agree r hf hr =>
    obtain ⟨hfirst, hrest⟩ := hseg.one_mode hf
    refine ⟨fun _ => .inl ((frontAgrees_iff info b).mp hf), fun _ => ⟨?_, ?_⟩⟩
    · intro i hi _ hbr
      rw [frontLabel_agree hf hseg]
      exact hfirst i hi hbr
    · intro q hq i hi _ hbr
      exact (hrest q hq).2.2 i hi hbr
  | pad e r hp he hpad hne hr =>
    have hmem : e ∈ front b := he ▸ List.mem_append_right _ (List.mem_singleton_self e)
    constructor
    · rintro ⟨hfirst, -⟩
      have hmode := hfirst e hmem (not_phi_of_pad hpad) (not_uncondBr_of_pad hpad)
      rw [frontLabel_pad hp hseg] at hmode
      exact absurd hmode (invertMode_ne _).symm
    · rintro (hone | ⟨hmixed, -⟩)
      · rw [← frontAgrees_iff] at hone
        have hmode : getMode info e = headMode info b.insts := by simpa using List.all_eq_true.mp hone e hmem
        exact absurd hmode.symm hne
      · rw [(phisAgree_iff info b).mpr hmixed] at hp
        cases hp
  | mixed i is r hp hi hr =>
    have hmixed := (phisAgree_iff info b).mp hp
    have hlabel := frontLabel_mixed hp hi hseg
    have hr1 : r.1 = i :: (runs info (getMode info i) is).1 := by
      rw [hr, hi]
      simp only [runs, ne_eq, not_true_eq_false, false_and, if_false]
    have hphi : i.isPHI = false := behind_phis hb.phis i (hi ▸ List.mem_cons_self ..)
    constructor
    · rintro ⟨hfirst, hrest⟩
      right
      have hbr : i.isUncondBr = true := by
        by_contra hbr
        have hbr' : i.isUncondBr = false := by simpa using hbr
        have hmode := hrest _ (List.mem_cons_self ..) i (hr1 ▸ List.mem_cons_self ..) hphi hbr'
        exact absurd hmode.symm (invertMode_ne _)
      refine ⟨hmixed, i, ?_, hbr, ?_⟩
      · -- a branch is the last instruction of its block
        cases is with
        | nil => exact hi
        | cons j js =>
          have hsplit : b.insts = (front b ++ [i]) ++ j :: js := by
            rw [List.append_assoc, List.singleton_append, ← hi, front_behind]
          have hno := hb.not_uncondBr hsplit i (by simp)
          rw [hbr] at hno
          cases hno
      · intro e he hephi
        have hebr : e.isUncondBr = false := by
          have hsplit : b.insts = front b ++ i :: is := by rw [← hi, front_behind]
          exact hb.not_uncondBr hsplit e he
        rw [hfirst e he hephi hebr, hlabel]
    · rintro (hone | ⟨-, j, hj, hbr, hpads⟩)
      · rw [← frontAgrees_iff] at hone
        rw [phisAgree_of_front info hone] at hp
        cases hp
      · rw [hi] at hj
        obtain ⟨rfl, rfl⟩ := List.cons.inj hj
        refine ⟨fun e he hephi _ => by rw [hlabel]; exact hpads e he hephi, fun q hq k hk _ hkbr => ?_⟩
        rcases List.mem_cons.mp hq with rfl | hq
        · have hk' : k ∈ [i] := hr1 ▸ hk
          rw [List.mem_singleton.mp hk', hbr] at hkbr
          cases hkbr
        · exact runs_modes info _ _ q (hr ▸ hq) k hk hkbr

/- An instruction of a block and the one of the piece it comes from. -/
theorem body_of_core (info : IteratorInfo) {i j : Inst} (h : i.core = j.core) :
    i.isPHI = j.isPHI ∧ i.isUncondBr = j.isUncondBr ∧ getMode info i = getMode info j := by
  refine ⟨?_, ?_, getMode_of_core h⟩
  · rw [← core_isPHI i, h, core_isPHI]
  · rw [← core_isUncondBr i, h, core_isUncondBr]

theorem JoinedPiece.body {p is js : List Inst} (h : JoinedPiece p is) (hcore : js.map Inst.core = is.map Inst.core)
    (m : Mode) : (∀ j ∈ js, j.isPHI = false → j.isUncondBr = false → getMode info j = m) ↔
      ∀ i ∈ p, i.isPHI = false → i.isUncondBr = false → getMode info i = m := by
  constructor
  · intro hjs i hi hphi hbr
    obtain ⟨j, hj, he⟩ := h.mem_of hcore hi
    obtain ⟨h1, h2, h3⟩ := body_of_core info he
    rw [← h3]
    exact hjs j hj (h1.trans hphi) (h2.trans hbr)
  · intro hp j hj hphi hbr
    rcases h.mem hcore hj with hb | ⟨i, hi, he⟩
    · rw [hb] at hbr
      cases hbr
    · obtain ⟨h1, h2, h3⟩ := body_of_core info he
      rw [← h3]
      exact hp i hi (h1.trans hphi) (h2.trans hbr)

/- The calls come to an end and the labels are right exactly when in every block of the loop the
PHIs and the EH pad have one mode, or PHIs that differ are followed by nothing but a branch, and
no EH pad ends the block. -/
theorem separate_labels_iff (addr : BlockId → Nat) (hl : LoopReady M LI l) :
    (∃ st, separate info addr M LI l = some st ∧ LabelsRight info l st) ↔
      ∀ b ∈ M.blocks, b.id ∈ LI.blocksOf l →
        b.HasInsertionPt ∧ (OneModeFront info b ∨ OnlyBranchBehind info b) := by
  have hsome := separate_isSome_iff info addr hl
  constructor
  · intro ⟨st, hst, hright⟩ b hb hbl
    refine ⟨hsome.mp (hst ▸ rfl) b hb hbl, ?_⟩
    obtain ⟨ch, hch, hdone⟩ := separate_chains hl hst
    obtain ⟨hseg, hlab⟩ := (hdone b hb).1 hbl
    have hloop := fun c hc => ((hch.chain b hb).loop c hc l hl.loop).mpr hbl
    refine (hseg.labels_iff (hl.shape info hst hb hbl)).mp ⟨?_, ?_⟩
    · obtain ⟨c, hc, hid, is, hj, he⟩ := hch.head_block hb
      obtain ⟨m, hm, hall⟩ := hright c hc (hid ▸ hloop b.id (List.mem_cons_self ..))
      have hlabel := (hch.chain b hb).label
      rw [hid, hlabel, hlab] at hm
      rw [Option.some.inj hm]
      exact (hj.piece.body he m).mp hall
    · intro q hq
      obtain ⟨c, hc, hid, hlook, is, hj, he⟩ := hch.piece_block hb hq
      obtain ⟨m, hm, hall⟩ := hright c hc (hloop c.id (List.mem_cons_of_mem _ hid))
      rw [hlook] at hm
      rw [Option.some.inj hm]
      exact (hj.body he m).mp hall
  · intro hfit
    obtain ⟨st, hst⟩ := Option.isSome_iff_exists.mp (hsome.mpr fun b hb hbl => (hfit b hb hbl).1)
    refine ⟨st, hst, fun c hc hcl => ?_⟩
    obtain ⟨ch, hch, hdone⟩ := separate_chains hl hst
    obtain ⟨b, hb, hbl, hcase⟩ := hch.block_cases hl.loop hc hcl
    obtain ⟨hseg, hlab⟩ := (hdone b hb).1 hbl
    obtain ⟨hfirst, hrest⟩ := (hseg.labels_iff (hl.shape info hst hb hbl)).mpr (hfit b hb hbl).2
    rcases hcase with ⟨-, hlook, is, hj, he⟩ | ⟨q, hq, hlook, is, hj, he⟩
    · exact ⟨frontLabel info b, hlook.trans hlab, (hj.body he _).mpr hfirst⟩
    · exact ⟨q.1.2, hlook, (hj.body he _).mpr (hrest q hq)⟩

theorem counterLoop_ready : LoopReady counterLoop counterLoops 0 :=
  ⟨counterLoop_splitInv.ids, counterLoop_splitInv.loops, counterLoop_splitInv.blocks_lt, by decide, by decide⟩

theorem separate_labels_iff_counterLoop :
    (∃ st, separate counterInfo id counterLoop counterLoops 0 = some st ∧ LabelsRight counterInfo 0 st) ↔
      ∀ b ∈ counterLoop.blocks, b.id ∈ counterLoops.blocksOf 0 →
        b.HasInsertionPt ∧ (OneModeFront counterInfo b ∨ OnlyBranchBehind counterInfo b) :=
  separate_labels_iff id counterLoop_ready

/- The counter and the sum of a loop are PHIs of differing modes. -/
def sumPHIs : Module where
  funcs := [{ id := 9, params := [], isVarArg := false, blocks :=
    [⟨0, [Inst.uncondBr 20 1], false⟩,
     ⟨1, [⟨21, .phi, .int 32, [.const (.int 32 0), .inst 23 (.int 32)], [0, 1], []⟩,
          ⟨26, .phi, .int 32, [.const (.int 32 0), .inst 27 (.int 32)], [0, 1], []⟩,
          ⟨22, .load, .int 32, [.global 0 (.int 32) 0], [], []⟩,
          ⟨27, .add, .int 32, [.inst 26 (.int 32), .inst 22 (.int 32)], [], []⟩,
          ⟨23, .add, .int 32, [.inst 21 (.int 32), .const (.int 32 1)], [], []⟩,
          ⟨24, .br, .void, [.inst 23 (.int 32)], [], [1, 2]⟩], false⟩,
     ⟨2, [⟨25, .ret, .void, [], [], []⟩], false⟩] }]
  nextId := 30
  valueName := fun _ => ""
  initUsesBlockAddress := fun _ => false

theorem sumPHIs_ready : LoopReady sumPHIs counterLoops 0 :=
  ⟨⟨by decide, by decide, by decide, by decide⟩, counterLoop_splitInv.loops, counterLoop_splitInv.blocks_lt,
    by decide, by decide⟩

/- Load and sum are payload, and their block gets the label of an iterator block. -/
theorem sumPHIs_mislabelled : LoopReady sumPHIs counterLoops 0 ∧
    ∃ st, separate counterInfo id sumPHIs counterLoops 0 = some st ∧ ¬ LabelsRight counterInfo 0 st :=
  ⟨sumPHIs_ready, _, rfl, by decide⟩

end Labels

section Cuts
variable {info : IteratorInfo}

/- Between `xs` and `i` the mode changes, PHIs of differing modes apart, or these PHIs end. -/
def ChangesAt (info : IteratorInfo) (b : Block) (xs : List Inst) (i : Inst) : Prop :=
  (∃ j, xs.getLast? = some j ∧ getMode info j ≠ getMode info i ∧
    ¬ (MixedPHIs info b ∧ (j.isPHI = true ∨ i.isPHI = true)) ∧ i.isUncondBr = false) ∨
  (MixedPHIs info b ∧ i.isPHI = false ∧ ∀ x ∈ xs, x.isPHI = true)

theorem cutBehind_append {pre first : List Inst} {rest : List Segment} {xs : List Inst} :
    CutBehind (pre ++ first) rest (pre ++ xs) ↔ CutBehind first rest xs := by
  simp only [CutBehind, List.append_assoc, List.append_cancel_left_eq]

theorem cutBehind_length {first : List Inst} {rest : List Segment} {xs : List Inst} (h : CutBehind first rest xs) :
    first.length ≤ xs.length := by
  obtain ⟨pre, q, post, -, rfl⟩ := h
  rw [List.length_append]
  omega

theorem cutBehind_cons {front : List Inst} {q : Segment} {rest : List Segment} {xs : List Inst} (hne : xs ≠ []) :
    CutBehind front (q :: rest) (front ++ xs) ↔ CutBehind q.2 rest xs := by
  constructor
  · rintro ⟨pre, q', post, hsplit, he⟩
    cases pre with
    | nil => exact absurd (List.append_cancel_left he) (by simpa using hne.symm)
    | cons p pre =>
      obtain ⟨rfl, hrest⟩ := List.cons.inj hsplit
      exact ⟨pre, q', post, hrest, List.append_cancel_left he⟩
  · rintro ⟨pre, q', post, hrest, he⟩
    exact ⟨q :: pre, q', post, by rw [hrest]; rfl, by rw [concat_cons, he]⟩

/- Where an instruction of the block stands: in the front or behind it. -/
theorem front_split {b : Block} {xs ys : List Inst} {i : Inst} (hi : b.insts = xs ++ i :: ys) :
    (∃ zs, front b = xs ++ i :: zs) ∨ ∃ zs, xs = front b ++ zs ∧ behind b = zs ++ i :: ys := by
  rw [← front_behind b] at hi
  rcases List.append_eq_append_iff.mp hi with ⟨zs, h1, h2⟩ | ⟨zs, h1, h2⟩
  · exact .inr ⟨zs, h1, h2⟩
  · cases zs with
    | nil => exact .inr ⟨[], by rw [h1, List.append_nil, List.append_nil], h2.symm⟩
    | cons z zs =>
      obtain ⟨rfl, -⟩ := List.cons.inj h2
      exact .inl ⟨zs, h1⟩

theorem front_phis {b : Block} (hpads : ∀ i ∈ b.insts, i.op.isEHPad = false) : front b = b.phis := by
  rcases front_cases b with ⟨h, -⟩ | ⟨e, h, hpad, -⟩
  · exact h
  · have hm : e ∈ b.insts := by
      rw [← front_behind b, h]
      simp
    rw [hpads e hm] at hpad
    cases hpad

theorem IR.Block.Shape.behind_plain {b : Block} (hb : b.Shape) {zs ys : List Inst} {i : Inst}
    (hz : behind b = zs ++ i :: ys) :
    (∀ z ∈ zs, z.isUncondBr = false) ∧ (∀ z ∈ zs, z.isPHI = false) ∧ i.isPHI = false := by
  have hall := behind_phis hb.phis
  rw [hz] at hall
  refine ⟨fun z hm => ?_, fun z hm => hall z (List.mem_append_left _ hm), hall i (by simp)⟩
  have hsplit : b.insts = (front b ++ zs) ++ i :: ys := by rw [List.append_assoc, ← hz, front_behind]
  exact hb.not_uncondBr hsplit z (List.mem_append_right _ hm)

/- Behind a front of one mode, the mode last seen is that of the instruction before. -/
theorem lastMode_iff {b : Block} (hmode : ∀ p ∈ front b, getMode info p = headMode info b.insts)
    {zs ys : List Inst} {i : Inst} (hi : b.insts = (front b ++ zs) ++ i :: ys) :
    (zs.getLast?.map (getMode info)).getD (headMode info b.insts) ≠ getMode info i ↔
      ∃ j, (front b ++ zs).getLast? = some j ∧ getMode info j ≠ getMode info i := by
  cases hzl : zs.getLast? with
  | some j =>
    have hl : (front b ++ zs).getLast? = some j := by rw [List.getLast?_append, hzl]; rfl
    rw [hl]
    simp
  | none =>
    obtain rfl : zs = [] := List.getLast?_eq_none_iff.mp hzl
    rw [List.append_nil] at hi ⊢
    cases hfl : (front b).getLast? with
    | some j =>
      have hj := hmode j (List.mem_of_getLast? hfl)
      simp [hj]
    | none =>
      have hnil : front b = [] := List.getLast?_eq_none_iff.mp hfl
      have hhead : headMode info b.insts = getMode info i := by rw [hi, hnil]; rfl
      simp [hhead]

/- The cuts of a block whose front has one mode. -/
theorem cut_agree_iff {b : Block} (hb : b.Shape) (hf : frontAgrees info b = true) {xs ys : List Inst} {i : Inst}
    (hi : b.insts = xs ++ i :: ys) :
    CutBehind (front b ++ (runs info (headMode info b.insts) (behind b)).1)
      (runs info (headMode info b.insts) (behind b)).2 xs ↔ ChangesAt info b xs i := by
  have hnomix : ¬ MixedPHIs info b := by
    rw [← phisAgree_iff, phisAgree_of_front info hf]
    exact Bool.noConfusion
  have hmode : ∀ p ∈ front b, getMode info p = headMode info b.insts := fun p hp => by
    simpa using List.all_eq_true.mp hf p hp
  rcases front_split hi with ⟨zs, hz⟩ | ⟨zs, rfl, hz⟩
  · -- inside the PHIs nothing changes
    constructor
    · intro hcut
      have hlen := cutBehind_length hcut
      rw [List.length_append, hz, List.length_append, List.length_cons] at hlen
      omega
    · rintro (⟨j, hj, hne, -, -⟩ | ⟨hmix, -⟩)
      · have hjm : j ∈ front b := hz ▸ List.mem_append_left _ (List.mem_of_getLast? hj)
        have him : i ∈ front b := hz ▸ List.mem_append_right _ (List.mem_cons_self ..)
        exact absurd ((hmode j hjm).trans (hmode i him).symm) hne
      · exact absurd hmix hnomix
  · obtain ⟨hbr, hphis, hphi⟩ := hb.behind_plain hz
    rw [cutBehind_append, hz, runs_cut info _ _ _ _ hbr, lastMode_iff hmode hi]
    constructor
    · rintro ⟨⟨j, hj, hne⟩, hibr⟩
      exact .inl ⟨j, hj, hne, fun hmix => hnomix hmix.1, hibr⟩
    · rintro (⟨j, hj, hne, -, hibr⟩ | ⟨hmix, -⟩)
      · exact ⟨⟨j, hj, hne⟩, hibr⟩
      · exact absurd hmix hnomix

/- The cuts of a block whose PHIs differ: one behind the PHIs, the others as the scan from
the first other instruction finds them. -/
theorem cut_mixed_iff {b : Block} (hb : b.Shape) (hfp : front b = b.phis) (hmix : MixedPHIs info b) (i₀ : Inst)
    {xs ys : List Inst} {i : Inst} (hi : b.insts = xs ++ i :: ys) :
    CutBehind (front b) (((i₀.id, invertMode (getMode info i₀)), (runs info (getMode info i₀) (behind b)).1) ::
      (runs info (getMode info i₀) (behind b)).2) xs ↔ ChangesAt info b xs i := by
  rcases front_split hi with ⟨zs, hz⟩ | ⟨zs, rfl, hz⟩
  · have hphi : i.isPHI = true := by
      refine phis_isPHI (b := b) i ?_
      rw [← hfp, hz]
      exact List.mem_append_right _ (List.mem_cons_self ..)
    constructor
    · intro hcut
      have hlen := cutBehind_length hcut
      rw [hz, List.length_append, List.length_cons] at hlen
      omega
    · rintro (⟨j, -, -, hno, -⟩ | ⟨-, hno, -⟩)
      · exact absurd ⟨hmix, .inr hphi⟩ hno
      · rw [hphi] at hno
        cases hno
  · obtain ⟨hbr, hphis, hphi⟩ := hb.behind_plain hz
    cases hzs : zs with
    | nil =>
      rw [List.append_nil]
      refine ⟨fun _ => .inr ⟨hmix, hphi, fun x hx => phis_isPHI x (hfp ▸ hx)⟩, fun _ => ?_⟩
      exact ⟨[], _, _, rfl, by rw [concat_nil, List.append_nil]⟩
    | cons z zs' =>
      have hne : zs ≠ [] := by simp [hzs]
      rw [← hzs, cutBehind_cons hne]
      have hrun := runs_cut info (getMode info i₀) zs i ys hbr
      rw [← hz] at hrun
      rw [hrun]
      obtain ⟨j, hj⟩ : ∃ j, zs.getLast? = some j :=
        Option.ne_none_iff_exists'.mp fun hn => hne (List.getLast?_eq_none_iff.mp hn)
      have hjphi := hphis j (List.mem_of_getLast? hj)
      have hjl : (front b ++ zs).getLast? = some j := by rw [List.getLast?_append, hj]; rfl
      rw [hj, Option.map_some, Option.getD_some]
      constructor
      · rintro ⟨hmode, hibr⟩
        refine .inl ⟨j, hjl, hmode, ?_, hibr⟩
        rintro ⟨-, h | h⟩
        · rw [hjphi] at h
          cases h
        · rw [hphi] at h
          cases h
      · rintro (⟨k, hk, hmode, -, hibr⟩ | ⟨-, -, hall⟩)
        · rw [hjl] at hk
          obtain rfl := Option.some.inj hk
          exact ⟨hmode, hibr⟩
        · have hjx := hall j (List.mem_append_right _ (List.mem_of_getLast? hj))
          rw [hjphi] at hjx
          cases hjx

/- A block without EH pads is cut exactly where `ChangesAt` says. -/
theorem Segments.cut_iff {b : Block} (hb : b.Shape) (hpads : ∀ i ∈ b.insts, i.op.isEHPad = false)
    {first : List Inst} {rest : List Segment} (h : Segments info b first rest) {xs ys : List Inst} {i : Inst}
    (hi : b.insts = xs ++ i :: ys) : CutBehind first rest xs ↔ ChangesAt info b xs i := by
  cases h with
  | pad e r hp he hpad hne hr =>
    have hm : e ∈ b.insts := by
      rw [← front_behind b, he]
      simp
    rw [hpads e hm] at hpad
    cases hpad
  | agree r hf hr =>
    rw [hr]
    exact cut_agree_iff hb hf hi
  | mixed i₀ is r hp hi₀ hr =>
    rw [hr]
    exact cut_mixed_iff hb (front_phis hpads) ((phisAgree_iff info b).mp hp) i₀ hi

theorem cutBehind_iff {first : List Inst} {rest : List Segment} {xs : List Inst} :
    CutBehind first rest xs ↔ ∃ ps qs, first :: rest.map Prod.snd = ps ++ qs ∧ ps ≠ [] ∧ qs ≠ [] ∧
      ps.flatten = xs := by
  constructor
  · rintro ⟨pre, q, post, rfl, rfl⟩
    refine ⟨first :: pre.map Prod.snd, q.2 :: post.map Prod.snd, ?_, List.cons_ne_nil _ _, List.cons_ne_nil _ _, rfl⟩
    rw [List.map_append, List.map_cons, List.cons_append]
  · rintro ⟨ps, qs, hsplit, hps, hqs, rfl⟩
    cases ps with
    | nil => exact absurd rfl hps
    | cons p ps =>
      obtain ⟨rfl, hrest⟩ := List.cons.inj hsplit
      obtain ⟨pre, post, rfl, rfl, hpost⟩ := List.map_eq_append_iff.mp hrest
      cases post with
      | nil => exact absurd hpost.symm hqs
      | cons q post => exact ⟨pre, q, post, rfl, rfl⟩

theorem Segments.front_append {b : Block} {first : List Inst} {rest : List Segment}
    (h : Segments info b first rest) : ∃ zs, first = front b ++ zs := by
  cases h with
  | agree r hf hr => exact ⟨r.1, rfl⟩
  | pad e r hp he hpad hne hr => exact ⟨[], (List.append_nil _).symm⟩
  | mixed i is r hp hi hr => exact ⟨[], (List.append_nil _).symm⟩

/- The block keeps an instruction at least. -/
theorem Segments.first_ne_nil {b : Block} (hb : b.Shape) {first : List Inst} {rest : List Segment}
    (h : Segments info b first rest) : first ≠ [] := by
  cases h with
  | agree r hf hr =>
    intro hnil
    obtain ⟨hfront, hr1⟩ := List.append_eq_nil_iff.mp hnil
    obtain ⟨i, is, hi, -, -⟩ := hb.behind_cons
    have hhead : headMode info b.insts = getMode info i := by
      rw [← front_behind b, hfront, hi]
      rfl
    rw [hr, hi, hhead] at hr1
    simp [runs] at hr1
  | pad e r hp he hpad hne hr =>
    rw [he]
    simp
  | mixed i is r hp hi hr =>
    obtain ⟨p, hm, -⟩ := (phisAgree_iff info b).mp hp
    intro hnil
    have hm' : p ∈ front b := by
      rcases front_cases b with ⟨h, -⟩ | ⟨e, h, -, -⟩
      · exact h ▸ hm
      · exact h ▸ List.mem_append_left _ hm
    rw [hnil] at hm'
    exact List.not_mem_nil hm'

/- Without EH pads no piece is empty. -/
theorem Segments.rest_ne_nil {b : Block} (hpads : ∀ i ∈ b.insts, i.op.isEHPad = false)
    {first : List Inst} {rest : List Segment} (h : Segments info b first rest) : ∀ q ∈ rest, q.2 ≠ [] := by
  have hruns : ∀ m, ∀ q ∈ (runs info m (behind b)).2, q.2 ≠ [] := by
    intro m q hq
    obtain ⟨i, ys, hcons, -, -⟩ := runs_heads info m (behind b) q hq
    simp [hcons]
  cases h with
  | agree r hf hr => exact fun q hq => hruns _ q (hr ▸ hq)
  | pad e r hp he hpad hne hr =>
    have hm : e ∈ b.insts := by
      rw [← front_behind b, he]
      simp
    rw [hpads e hm] at hpad
    cases hpad
  | mixed i is r hp hi hr =>
    intro q hq
    rcases List.mem_cons.mp hq with rfl | hq
    · rw [hr, hi]
      simp [runs]
    · exact hruns _ q (hr ▸ hq)

variable {M : Module} {LI : LoopInfo} {l : LoopId}

/- The blocks after the split are the chains of the blocks before. The chain of a block of
the loop holds its instructions in order, and is cut exactly where `ChangesAt` says. -/
theorem separate_cuts (info : IteratorInfo) (addr : BlockId → Nat) (hl : LoopReady M LI l)
    (hpt : ∀ b ∈ M.blocks, b.id ∈ LI.blocksOf l → b.HasInsertionPt) :
    ∃ st, separate info addr M LI l = some st ∧
    ∃ (chain : BlockId → List BlockId) (pieces : BlockId → List (List Inst)),
      List.Perm (st.M.blocks.map Block.id) (M.blocks.flatMap fun b => b.id :: chain b.id) ∧
      ∀ b ∈ M.blocks, b.id ∈ LI.blocksOf l → (∀ i ∈ b.insts, i.op.isEHPad = false) →
        Links st.M (b.id :: chain b.id) (pieces b.id) ∧
        (pieces b.id).flatten = b.insts ∧ (∀ p ∈ pieces b.id, p ≠ []) ∧
        ∀ xs i ys, b.insts = xs ++ i :: ys →
          ((∃ ps qs, pieces b.id = ps ++ qs ∧ ps ≠ [] ∧ qs ≠ [] ∧ ps.flatten = xs) ↔
            ChangesAt info b xs i) := by
  obtain ⟨st, hst⟩ := Option.isSome_iff_exists.mp ((separate_isSome_iff info addr hl).mpr hpt)
  obtain ⟨ch, hch, hdone⟩ := separate_chains hl hst
  refine ⟨st, hst, fun n => (ch n).tail, fun n => (ch n).first :: (ch n).rest.map Prod.snd, hch.perm, ?_⟩
  intro b hb hbl hpads
  have hseg := ((hdone b hb).1 hbl).segments
  have hshape := hl.shape info hst hb hbl
  refine ⟨(hch.chain b hb).links, hseg.concat, ?_, ?_⟩
  · intro p hp
    rcases List.mem_cons.mp hp with rfl | hp
    · exact hseg.first_ne_nil hshape
    · obtain ⟨q, hq, rfl⟩ := List.mem_map.mp hp
      exact hseg.rest_ne_nil hpads q hq
  · intro xs i ys hi
    rw [← cutBehind_iff]
    exact hseg.cut_iff hshape hpads hi

theorem separate_cuts_counterLoop :
    ∃ st, separate counterInfo id counterLoop counterLoops 0 = some st ∧
    ∃ (chain : BlockId → List BlockId) (pieces : BlockId → List (List Inst)),
      List.Perm (st.M.blocks.map Block.id) (counterLoop.blocks.flatMap fun b => b.id :: chain b.id) ∧
      ∀ b ∈ counterLoop.blocks, b.id ∈ counterLoops.blocksOf 0 → (∀ i ∈ b.insts, i.op.isEHPad = false) →
        Links st.M (b.id :: chain b.id) (pieces b.id) ∧
        (pieces b.id).flatten = b.insts ∧ (∀ p ∈ pieces b.id, p ≠ []) ∧
        ∀ xs i ys, b.insts = xs ++ i :: ys →
          ((∃ ps qs, pieces b.id = ps ++ qs ∧ ps ≠ [] ∧ qs ≠ [] ∧ ps.flatten = xs) ↔
            ChangesAt counterInfo b xs i) :=
  separate_cuts counterInfo id counterLoop_ready (by decide)

end Cuts

section Again
variable {info : IteratorInfo}

theorem blockPoints_of_mode {c : Block} {m : Mode} (hhead : headMode info c.insts = m)
    (hall : ∀ i ∈ c.insts, i.isUncondBr = false → getMode info i = m) : blockPoints info c = [] := by
  have hp : phisAgree info c = true := by
    refine List.all_eq_true.mpr fun p hp => ?_
    have hphi := phis_isPHI p hp
    simp only [Inst.isPHI, decide_eq_true_eq] at hphi
    have hbr : p.isUncondBr = false := by simp [Inst.isUncondBr, hphi]
    rw [hhead]
    exact decide_eq_true (hall p (List.takeWhile_subset _ hp) hbr)
  simp only [blockPoints, hp, if_true, List.nil_append]
  rw [hhead]
  exact changePoints_of_body info hall

theorem mode_of_blockPoints {c : Block} (hpt : c.HasInsertionPt) (h : blockPoints info c = []) :
    ∀ i ∈ c.insts, i.isUncondBr = false → getMode info i = headMode info c.insts := by
  obtain ⟨hfirst, hscan⟩ := List.append_eq_nil_iff.mp h
  by_cases hp : phisAgree info c = true
  · simp only [hp, if_true] at hscan
    exact changePoints_eq_nil info hscan
  · -- PHIs that differ leave a point in front of whatever follows them
    simp only [hp, Bool.false_eq_true, if_false] at hfirst
    cases hcons : c.insts.drop (firstInsertionPt c) with
    | nil => exact absurd hpt (Nat.not_lt.mpr (List.drop_eq_nil_iff.mp hcons))
    | cons j js =>
      rw [hcons] at hfirst
      cases hfirst

/- A call goes through and finds nothing exactly when each block has an insertion point and no point. -/
theorem findPartitionPoints_nil_iff {M : Module} {loopBlocks : List BlockId}
    (hnd : ((M.region loopBlocks).map Block.id).Nodup) :
    (∃ found, findPartitionPoints M loopBlocks info ∅ [] = some found ∧ found.2 = []) ↔
      ∀ b ∈ M.region loopBlocks, b.HasInsertionPt ∧ blockPoints info b = [] := by
  constructor
  · intro ⟨found, hfind, hnil⟩ b hb
    have hpts := (findPartitionPoints_found hnd hfind).points b hb
    rw [hnil] at hpts
    exact ⟨(findPartitionPoints_some hfind).1 b hb, hpts.symm⟩
  · intro hall
    refine ⟨_, by rw [findPartitionPoints_eq, if_pos fun b hb => (hall b hb).1], ?_⟩
    refine Lib.foldl_preserves (P := fun st : BlockModeMapTy × ModeChangePointMap => st.2 = []) _ ?_ rfl
    intro b st hb hst
    rw [scanBlock_points, (hall b hb).2, hst]
    rfl

/- A block that holds a piece of one mode has no point. -/
theorem JoinedPiece.no_points {c : Block} {p is : List Inst} (h : JoinedPiece p is)
    (hcore : c.insts.map Inst.core = is.map Inst.core) {m : Mode} (hne : p ≠ []) (hhead : headMode info p = m)
    (hall : ∀ i ∈ p, i.isUncondBr = false → getMode info i = m) : blockPoints info c = [] := by
  refine blockPoints_of_mode (m := m) ?_ ?_
  · rw [headMode_core info hcore]
    rcases h with rfl | ⟨n, d, rfl⟩
    · exact hhead
    · rw [headMode_append info hne, hhead]
  · intro j hj hbr
    rcases h.mem hcore hj with hb | ⟨i, hi, he⟩
    · rw [hb] at hbr
      cases hbr
    · obtain ⟨-, h2, h3⟩ := body_of_core info he
      rw [← h3]
      exact hall i hi (h2.trans hbr)

variable {M : Module} {LI : LoopInfo} {l : LoopId}

/- The block of a piece has an insertion point when the piece has an instruction to insert in front
of, or a branch behind it. -/
theorem JoinedPiece.hasInsertionPt {c : Block} {p is : List Inst} (h : JoinedPiece p is)
    (hcore : c.insts.map Inst.core = is.map Inst.core)
    (hp : is = p → ∃ i ∈ p, i.isPHI = false ∧ i.op.isEHPad = false) : c.HasInsertionPt := by
  have hplain : ∃ i ∈ is, i.isPHI = false ∧ i.op.isEHPad = false := by
    rcases h with rfl | ⟨n, d, rfl⟩
    · exact hp rfl
    · exact ⟨Inst.uncondBr n d, List.mem_append_right _ (List.mem_singleton_self _), rfl, rfl⟩
  obtain ⟨i, hi, hphi, hpad⟩ := hplain
  obtain ⟨j, hj, hji⟩ := mem_of_core hcore hi
  exact hasInsertionPt_of_mem hj ((isPHI_of_core hji).trans hphi) ((congrArg Opcode.isEHPad (op_of_core hji)).trans hpad)

/- Behind a front of one mode each later piece starts with an instruction to insert in front of. -/
theorem Segments.rest_plain {b : Block} (hb : b.Shape) (hf : frontAgrees info b = true) {first : List Inst}
    {rest : List Segment} (h : Segments info b first rest) :
    ∀ q ∈ rest, ∃ i ∈ q.2, i.isPHI = false ∧ i.op.isEHPad = false := by
  cases h with
  | agree r _ hr =>
    intro q hq
    obtain ⟨i, ys, hcons, hi, -⟩ := runs_heads info _ _ q (hr ▸ hq)
    exact ⟨i, hcons ▸ List.mem_cons_self .., behind_phis hb.phis i hi, hb.pads i hi⟩
  | pad e r hp he hpad hne hr =>
    have hmem : e ∈ front b := he ▸ List.mem_append_right _ (List.mem_singleton_self e)
    exact absurd (by simpa using List.all_eq_true.mp hf e hmem) hne.symm
  | mixed i is r hp hi hr =>
    rw [phisAgree_of_front info hf] at hp
    cases hp

/- The first block of a chain, with a piece or with a branch. -/
theorem Chains.head_hasInsertionPt {M : Module} {LI : LoopInfo} {st : SplitState} {ch : BlockId → Chain}
    (h : Chains M LI st ch) {b c : Block} (hb : b ∈ M.blocks) (hshape : b.Shape)
    (hseg : Segments info b (ch b.id).first (ch b.id).rest) (hc : c ∈ st.M.blocks) (hid : c.id = b.id) :
    c.HasInsertionPt := by
  obtain ⟨d, hd, hdid, is, hj, he⟩ := h.head_block hb
  obtain rfl := List.inj_on_of_nodup_map h.ids.blocks_nodup hc hd (hid.trans hdid.symm)
  refine hj.piece.hasInsertionPt he fun hsame => ?_
  have hlen := (h.chain b hb).labels.length_eq
  cases ht : (ch b.id).tail with
  | nil =>
    -- the whole block
    rw [ht] at hlen
    have hrest : (ch b.id).rest = [] := List.length_eq_zero_iff.mp hlen.symm
    have hall := hseg.concat
    rw [hrest, concat_nil, List.append_nil] at hall
    obtain ⟨i, js, hi, hphi, hpad⟩ := hshape.behind_cons
    refine ⟨i, ?_, hphi, hpad⟩
    rw [hall, ← front_behind b, hi]
    exact List.mem_append_right _ (List.mem_cons_self ..)
  | cons e es =>
    rw [ht] at hj
    obtain ⟨n, hn⟩ := hj
    rw [hsame] at hn
    exact absurd hn (by simp)

/- A second run goes through and finds nothing exactly when in every block of the loop the PHIs and
the EH pad have one mode, and no EH pad ends the block. -/
theorem separate_again_iff (addr : BlockId → Nat) (hl : LoopReady M LI l) :
    (∃ st, separate info addr M LI l = some st ∧
      ∃ found, findPartitionPoints st.M (st.LI.blocksOf l) info ∅ [] = some found ∧ found.2 = []) ↔
      ∀ b ∈ M.blocks, b.id ∈ LI.blocksOf l → b.HasInsertionPt ∧ OneModeFront info b := by
  have hsome := separate_isSome_iff info addr hl
  constructor
  · intro ⟨st, hst, hnone⟩ b hb hbl
    obtain ⟨ch, hch, hdone⟩ := separate_chains hl hst
    have hnd : ((st.M.region (st.LI.blocksOf l)).map Block.id).Nodup :=
      (region_ids_sublist st.M _).nodup (hch.loops.blocks_nodup l (hch.length ▸ hl.loop))
    rw [findPartitionPoints_nil_iff hnd] at hnone
    have hshape := hl.shape info hst hb hbl
    have hseg := ((hdone b hb).1 hbl).segments
    obtain ⟨c, hc, hid, is, hj, he⟩ := hch.head_block hb
    have hcl : c.id ∈ st.LI.blocksOf l :=
      hid ▸ ((hch.chain b hb).loop b.id (List.mem_cons_self ..) l hl.loop).mpr hbl
    obtain ⟨zs, hzs⟩ := hseg.front_append
    obtain ⟨hpt, hpts⟩ := hnone c ((mem_region hch.ids).mpr ⟨hc, hcl⟩)
    have hmode := mode_of_blockPoints hpt hpts
    have hfront : ∀ p ∈ front b, getMode info p = headMode info c.insts := by
      intro p hp
      obtain ⟨j, hjm, hje⟩ := hj.piece.mem_of he (hzs ▸ List.mem_append_left _ hp)
      obtain ⟨-, h2, h3⟩ := body_of_core info hje
      obtain ⟨i, js, hi, -, -⟩ := hshape.behind_cons
      have hsplit : b.insts = front b ++ i :: js := by rw [← hi, front_behind]
      rw [← h3]
      exact hmode j hjm (h2.trans (hshape.not_uncondBr hsplit p hp))
    refine ⟨hshape.insertionPt, fun p hp q hq => ?_⟩
    rw [hfront p hp, hfront q hq]
  · intro hone
    obtain ⟨st, hst⟩ := Option.isSome_iff_exists.mp (hsome.mpr fun b hb hbl => (hone b hb hbl).1)
    obtain ⟨ch, hch, hdone⟩ := separate_chains hl hst
    have hnd : ((st.M.region (st.LI.blocksOf l)).map Block.id).Nodup :=
      (region_ids_sublist st.M _).nodup (hch.loops.blocks_nodup l (hch.length ▸ hl.loop))
    refine ⟨st, hst, (findPartitionPoints_nil_iff hnd).mpr fun c hc => ?_⟩
    obtain ⟨hcm, hcl⟩ := (mem_region hch.ids).mp hc
    obtain ⟨b, hb, hbl, hcase⟩ := hch.block_cases hl.loop hcm hcl
    have hshape := hl.shape info hst hb hbl
    have hseg := ((hdone b hb).1 hbl).segments
    have hagree := (frontAgrees_iff info b).mpr (hone b hb hbl).2
    obtain ⟨hfirst, hrest⟩ := hseg.one_mode hagree
    rcases hcase with ⟨hid, -, is, hj, he⟩ | ⟨q, hq, -, is, hj, he⟩
    · have hne := hseg.first_ne_nil hshape
      refine ⟨hch.head_hasInsertionPt hb hshape hseg hcm hid, hj.no_points he hne ?_ hfirst⟩
      rw [← hseg.concat, headMode_append info hne]
    · obtain ⟨hne, hhead, hall⟩ := hrest q hq
      exact ⟨hj.hasInsertionPt he fun _ => hseg.rest_plain hshape hagree q hq, hj.no_points he hne hhead hall⟩

theorem separate_again_iff_counterLoop :
    (∃ st, separate counterInfo id counterLoop counterLoops 0 = some st ∧
      ∃ found, findPartitionPoints st.M (st.LI.blocksOf 0) counterInfo ∅ [] = some found ∧ found.2 = []) ↔
      ∀ b ∈ counterLoop.blocks, b.id ∈ counterLoops.blocksOf 0 → b.HasInsertionPt ∧ OneModeFront counterInfo b :=
  separate_again_iff id counterLoop_ready

/- The block of the two PHIs is cut again, in front of the branch the first run put there. -/
theorem sumPHIs_cut_again : LoopReady sumPHIs counterLoops 0 ∧
    ∃ st, separate counterInfo id sumPHIs counterLoops 0 = some st ∧
      ∃ found, findPartitionPoints st.M (st.LI.blocksOf 0) counterInfo ∅ [] = some found ∧ found.2 ≠ [] :=
  ⟨sumPHIs_ready, _, rfl, _, rfl, by decide⟩

end Again

end Atrox
