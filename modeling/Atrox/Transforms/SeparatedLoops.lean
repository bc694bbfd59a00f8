import Atrox.Analysis.PayloadTree
import Atrox.Lib.NodeSplit
import Atrox.Transforms.SplitBehaviour
import Atrox.Transforms.SplitBlocks

/-!
# The loops after the separation pass

`BlockSeparatorPass::run` says that the loops are preserved: `SplitBlock` keeps them up to date,
and what they are told to be is what they are in the new control flow.
-/

namespace Atrox
open IR Lib

section Split
variable {M : Module} {b : Block} {xs ys : List Inst} {i : Inst}

theorem edge_iff (hM : M.Ids) {a c : BlockId} : Edge M a c ↔ ∃ x ∈ M.blocks, x.id = a ∧ c ∈ x.succs := by
  unfold Edge Module.succsOf
  constructor
  · intro h
    cases hx : M.block? a with
    | none =>
      rw [hx] at h
      cases h
    | some x =>
      rw [hx] at h
      obtain ⟨hmem, hid⟩ := block?_some hx
      exact ⟨x, hmem, hid, h⟩
  · rintro ⟨x, hx, rfl, hc⟩
    rw [block?_mem hM hx]
    exact hc

/- A split cuts a node of the control flow in two. -/
theorem splitBlock_nodeSplit (hM : M.Ids) (hb : b ∈ M.blocks) (hsplit : b.insts = xs ++ i :: ys) (hphi : i.isPHI = false)
    (hpad : i.op.isEHPad = false) : NodeSplit (Edge M) (Edge (M.splitBlock b.id i.id).1) b.id M.nextId where
  edge := by
    have hex := splitBlock_exact hM hb hsplit hphi hpad
    intro a c
    rw [edge_iff (splitBlock_ids hM b.id i.id), edge_iff hM, edge_iff hM]
    constructor
    · rintro ⟨x, hx, rfl, hc⟩
      obtain ⟨y, rfl, ⟨hy, hne⟩ | rfl | rfl⟩ := (hex x).mp hx <;> rw [redirectIn_succs] at hc <;> rw [redirectIn_id]
      · exact .inr (.inr ⟨hne, Nat.ne_of_lt (hM.blocks_lt y hy), y, hy, rfl, hc⟩)
      · change c ∈ (headHalf b xs M.nextId).succs at hc
        rw [headHalf_succs] at hc
        exact .inl ⟨rfl, List.mem_singleton.mp hc⟩
      · change c ∈ (tailHalf (i :: ys) M.nextId).succs at hc
        rw [tailHalf_succs hsplit] at hc
        exact .inr (.inl ⟨rfl, b, hb, rfl, hc⟩)
    · rintro (⟨rfl, rfl⟩ | ⟨rfl, y, hy, hid, hc⟩ | ⟨hold, -, y, hy, rfl, hc⟩)
      · refine ⟨_, (hex _).mpr ⟨headHalf b xs M.nextId, rfl, .inr (.inl rfl)⟩, redirectIn_id .., ?_⟩
        rw [redirectIn_succs, headHalf_succs]
        exact List.mem_singleton_self _
      · obtain rfl := List.inj_on_of_nodup_map hM.blocks_nodup hy hb hid
        refine ⟨_, (hex _).mpr ⟨tailHalf (i :: ys) M.nextId, rfl, .inr (.inr rfl)⟩, redirectIn_id .., ?_⟩
        rwa [redirectIn_succs, tailHalf_succs hsplit]
      · refine ⟨_, (hex _).mpr ⟨y, rfl, .inl ⟨hy, hold⟩⟩, redirectIn_id .., ?_⟩
        rwa [redirectIn_succs]

end Split

section Update
variable (LI : LoopInfo) (old new : BlockId)

theorem splitUpdate_loop {β : Type} (f : Loop → β) (hf : ∀ L bs, f { L with blocks := bs } = f L) (m : LoopId) :
    ((LI.splitUpdate old new).loops[m]?).map f = (LI.loops[m]?).map f := by
  unfold LoopInfo.splitUpdate
  cases LI.getLoopFor old with
  | none => rfl
  | some l =>
    simp only [LoopInfo.addBlock_getElem?, Option.map_map]
    refine Option.map_congr fun L _ => ?_
    simp only [Function.comp_apply]
    split
    · exact hf L _
    · rfl

theorem splitUpdate_bbMap (b : BlockId) :
    (LI.splitUpdate old new).bbMap b = if b = new ∧ (LI.bbMap old).isSome then LI.bbMap old else LI.bbMap b := by
  unfold LoopInfo.splitUpdate LoopInfo.getLoopFor
  cases LI.bbMap old with
  | none => simp
  | some l => simp

end Update

/- The loops are those of the control flow: there is no way into one but through its header, and each of its blocks
is on a way from the header back to it. -/
structure RightLoops (M : Module) (LI : LoopInfo) : Prop extends LI.Natural M where
  goesRound : ∀ m < LI.loops.length, ∀ h, LI.headerOf m = some h → GoesRound (Edge M) {b | b ∈ LI.blocksOf m} h

/- Nothing leads to a block that is not there. -/
def EdgesExist (M : Module) : Prop := ∀ a c, Edge M a c → ∃ x ∈ M.blocks, x.id = c

section Step
variable {M : Module} {LI : LoopInfo}

theorem natural_entry (hM : M.Ids) (h : LI.Natural M) {m : LoopId} (hm : m < LI.loops.length) {a c : BlockId}
    (hr : LI.Live M a) (he : Edge M a c) (hc : c ∈ LI.blocksOf m) (ha : a ∉ LI.blocksOf m) :
    LI.headerOf m = some c := by
  obtain ⟨x, hx, rfl, hs⟩ := (edge_iff hM).mp he
  exact h.entry m hm x hx hr c hs hc ha

theorem reached_edge (hM : M.Ids) {a c : BlockId} (hr : M.Reached a) (he : Edge M a c) : M.Reached c := by
  obtain ⟨x, hx, rfl, hs⟩ := (edge_iff hM).mp he
  exact .succ hx hr hs

/- A function with the same face starts at the same block. -/
theorem entry_of_faces {N : Module} (hface : N.funcs.map Function.face = M.funcs.map Function.face) {f : FuncId} {r : BlockId}
    (h : ∃ F ∈ M.funcs, F.id = f ∧ F.blocks.head?.map Block.id = some r) :
    ∃ F ∈ N.funcs, F.id = f ∧ F.blocks.head?.map Block.id = some r := by
  obtain ⟨F, hF, hid, hentry⟩ := h
  obtain ⟨G, hG, he⟩ := List.mem_map.mp (hface ▸ List.mem_map_of_mem hF)
  simp only [Function.face, Prod.mk.injEq] at he
  exact ⟨G, hG, he.1.trans hid, he.2.2.2.trans hentry⟩

theorem isEntryBlock_of_faces {N : Module} (hface : N.funcs.map Function.face = M.funcs.map Function.face) {b : BlockId}
    (h : N.isEntryBlock b = true) : M.isEntryBlock b = true := by
  obtain ⟨F, hF, hb⟩ := List.any_eq_true.mp h
  obtain ⟨G, hG, -, hhead⟩ := entry_of_faces hface.symm ⟨F, hF, rfl, of_decide_eq_true hb⟩
  exact List.any_eq_true.mpr ⟨G, hG, decide_eq_true hhead⟩

theorem isEntryBlock_exist {b : BlockId} (h : M.isEntryBlock b = true) : ∃ x ∈ M.blocks, x.id = b := by
  obtain ⟨F, hF, hb⟩ := List.any_eq_true.mp h
  obtain ⟨x, hx, rfl⟩ := Option.map_eq_some_iff.mp (of_decide_eq_true hb)
  exact ⟨x, List.mem_flatMap.mpr ⟨F, hF, List.mem_of_mem_head? hx⟩, rfl⟩

/- The blocks of a loop are blocks. -/
theorem RightLoops.exist (hM : M.Ids) (h : RightLoops M LI) {m : LoopId} (hm : m < LI.loops.length) {b : BlockId}
    (hb : b ∈ LI.blocksOf m) : ∃ x ∈ M.blocks, x.id = b := by
  obtain ⟨hd, hh⟩ := LoopInfo.headerOf_some hm
  obtain ⟨p, hp, hedge⟩ := (h.goesRound m hm hd hh).back b hb
  have hout : ∃ c, Edge M b c := by
    rcases Relation.ReflTransGen.cases_head hp with rfl | ⟨y, hy, -⟩
    · exact ⟨hd, hedge⟩
    · exact ⟨y, hy.1⟩
  obtain ⟨c, hc⟩ := hout
  obtain ⟨x, hx, hid, -⟩ := (edge_iff hM).mp hc
  exact ⟨x, hx, hid⟩

theorem RightLoops.fresh (hM : M.Ids) (h : RightLoops M LI) {m : LoopId} (hm : m < LI.loops.length) :
    M.nextId ∉ LI.blocksOf m := by
  intro hmem
  obtain ⟨x, hx, hid⟩ := h.exist hM hm hmem
  have hlt := hM.blocks_lt x hx
  rw [hid] at hlt
  exact Nat.lt_irrefl _ hlt

theorem updated_header (old new : BlockId) (m : LoopId) : (LI.splitUpdate old new).headerOf m = LI.headerOf m :=
  splitUpdate_loop LI old new Loop.header (fun _ _ => rfl) m

theorem updated_parent (old new : BlockId) (m : LoopId) : (LI.splitUpdate old new).parentOf m = LI.parentOf m := by
  have hparent := splitUpdate_loop LI old new Loop.parent (fun _ _ => rfl) m
  unfold LoopInfo.parentOf
  cases hl : (LI.splitUpdate old new).loops[m]? <;> cases hl' : LI.loops[m]? <;> simp_all

theorem updated_blocks (h : LI.WF) (old new : BlockId) {m : LoopId} (hm : m < LI.loops.length) :
    {b | b ∈ (LI.splitUpdate old new).blocksOf m} = withHalf {b | b ∈ LI.blocksOf m} old new := by
  ext b
  exact LoopInfo.splitUpdate_blocksOf h old new hm b

section Updated
variable (hM : M.Ids) (h : RightLoops M LI) (hex : EdgesExist M) {old : BlockId} {N : Module} (hN : N.Ids)
  (hnode : NodeSplit (Edge M) (Edge N) old M.nextId)

include hM hex hN hnode in
/- What is reached once a block is split was reached before; the second half, with the block. -/
theorem reached_split (hentry : ∀ b, N.isEntryBlock b = true → M.isEntryBlock b = true) {n : BlockId} (hr : N.Reached n) :
    (n = M.nextId → M.Reached old) ∧ (n ≠ M.nextId → M.Reached n) := by
  have hne : ∀ {a c}, Edge M a c → c ≠ M.nextId := by
    intro a c he heq
    obtain ⟨x, hx, rfl⟩ := hex a c he
    exact Nat.ne_of_lt (hM.blocks_lt x hx) heq
  induction hr with
  | @entry b hb =>
    obtain ⟨x, hx, rfl⟩ := isEntryBlock_exist (hentry b hb)
    exact ⟨fun he => absurd he (Nat.ne_of_lt (hM.blocks_lt x hx)), fun _ => .entry (hentry _ hb)⟩
  | @succ x s hx _ hs ih =>
    rcases (hnode.edge x.id s).mp ((edge_iff hN).mpr ⟨x, hx, rfl, hs⟩) with ⟨hold, rfl⟩ | ⟨hnew, he⟩ | ⟨-, hno, he⟩
    · refine ⟨fun _ => ?_, fun hns => absurd rfl hns⟩
      by_cases hxn : x.id = M.nextId
      · exact ih.1 hxn
      · exact hold ▸ ih.2 hxn
    · exact ⟨fun hsn => absurd hsn (hne he), fun _ => reached_edge hM (ih.1 hnew) he⟩
    · exact ⟨fun hsn => absurd hsn (hne he), fun _ => reached_edge hM (ih.2 hno) he⟩

variable (hentry : ∀ b, N.isEntryBlock b = true → M.isEntryBlock b = true)
include hM h hex hN hnode hentry

theorem live_split {n : BlockId} (hr : (LI.splitUpdate old M.nextId).Live N n) :
    (n = M.nextId → LI.Live M old) ∧ (n ≠ M.nextId → LI.Live M n) := by
  rcases hr with hr | hr
  · obtain ⟨h1, h2⟩ := reached_split hM hex hN hnode hentry hr
    exact ⟨fun hn => .inl (h1 hn), fun hn => .inl (h2 hn)⟩
  · rw [splitUpdate_bbMap] at hr
    refine ⟨fun hn => ?_, fun hn => ?_⟩
    · split at hr
      · exact .inr hr
      · -- the new number was in no loop
        obtain ⟨m, hm⟩ := Option.isSome_iff_exists.mp hr
        have hlt := h.bbMap_lt n m hm
        refine absurd ((h.mem_blocksOf m hlt n).mpr ⟨m, hm, LoopInfo.self_enclosing h.toNatural hlt⟩) ?_
        exact hn ▸ h.fresh hM hlt
    · rw [if_neg fun hc => hn hc.1] at hr
      exact .inr hr

theorem updated_natural : (LI.splitUpdate old M.nextId).Natural N where
  toWF := LoopInfo.splitUpdate_wf h.toWF old M.nextId fun m hm => h.fresh hM hm
  parent_lt := by
    intro m p hp
    rw [updated_parent] at hp
    exact h.parent_lt m p hp
  bbMap_lt := by
    intro b m hb
    rw [LoopInfo.splitUpdate_length]
    rw [splitUpdate_bbMap] at hb
    split at hb
    · exact h.bbMap_lt old m hb
    · exact h.bbMap_lt b m hb
  header := by
    intro m hd hh
    rw [updated_header] at hh
    have hne : hd ≠ M.nextId := by
      obtain ⟨hm, hmem⟩ := LoopInfo.header_mem h.toNatural hh
      exact fun he => h.fresh hM hm (he ▸ hmem)
    rw [splitUpdate_bbMap, if_neg fun hc => hne hc.1]
    exact h.header m hd hh
  entry := by
    intro m hm x hx hr y hy hin hout
    obtain ⟨hold', hlive⟩ := live_split hM h hex hN hnode hentry hr
    rw [LoopInfo.splitUpdate_length] at hm
    rw [LoopInfo.splitUpdate_blocksOf h.toWF old M.nextId hm] at hin hout
    rw [updated_header]
    have hno : ¬(x.id ∈ LI.blocksOf m) := fun hc => hout (.inl hc)
    rcases (hnode.edge x.id y).mp ((edge_iff hN).mpr ⟨x, hx, rfl, hy⟩) with ⟨hold, rfl⟩ | ⟨hnew, he⟩ | ⟨-, hnew, he⟩
    · -- the way into the second half starts in the loop
      rcases hin with hin | ⟨-, hin⟩
      · exact absurd hin (h.fresh hM hm)
      · exact absurd (hold ▸ hin) hno
    · obtain ⟨c, hc, rfl⟩ := hex old y he
      have hold : old ∉ LI.blocksOf m := fun hc => hout (.inr ⟨hnew, hc⟩)
      rcases hin with hin | ⟨heq, -⟩
      · exact natural_entry hM h.toNatural hm (hold' hnew) he hin hold
      · exact absurd heq (Nat.ne_of_lt (hM.blocks_lt c hc))
    · obtain ⟨c, hc, rfl⟩ := hex x.id y he
      rcases hin with hin | ⟨heq, -⟩
      · exact natural_entry hM h.toNatural hm (hlive hnew) he hin hno
      · exact absurd heq (Nat.ne_of_lt (hM.blocks_lt c hc))

theorem updated_rightLoops : RightLoops N (LI.splitUpdate old M.nextId) where
  toNatural := updated_natural hM h hex hN hnode hentry
  goesRound := by
    intro m hm hd hh
    rw [LoopInfo.splitUpdate_length] at hm
    rw [updated_header] at hh
    rw [updated_blocks h.toWF old M.nextId hm]
    exact hnode.goesRound (h.fresh hM hm) (h.goesRound m hm hd hh)

end Updated

theorem split_edgesExist (hM : M.WF) (hex : EdgesExist M) {b : Block} (hb : b ∈ M.blocks) (pt : InstId)
    (hnode : NodeSplit (Edge M) (Edge (M.splitBlock b.id pt).1) b.id M.nextId) : EdgesExist (M.splitBlock b.id pt).1 := by
  intro a c hac
  refine (splitBlock_mem hM pt ⟨b, hb, rfl⟩ c).mpr ?_
  rcases (hnode.edge a c).mp hac with ⟨-, rfl⟩ | ⟨-, he⟩ | ⟨-, -, he⟩
  · exact .inr rfl
  · exact .inl (hex _ _ he)
  · exact .inl (hex _ _ he)

/- The loops keep their place in the nest, their headers and their old blocks. -/
structure SameNest (M : Module) (LI LI' : LoopInfo) : Prop where
  length : LI'.loops.length = LI.loops.length
  header : ∀ m, LI'.headerOf m = LI.headerOf m
  parent : ∀ m, LI'.parentOf m = LI.parentOf m
  old : ∀ m < LI.loops.length, ∀ b ∈ M.blocks, b.id ∈ LI'.blocksOf m ↔ b.id ∈ LI.blocksOf m

/- What a run of splits keeps of the loops, the blocks and the instructions. -/
structure Kept (M : Module) (LI : LoopInfo) (N : Module) (LI' : LoopInfo) : Prop where
  inv : SplitInv N LI'
  nest : SameNest M LI LI'
  insts : SameInsts M N
  blocks : ∀ b ∈ M.blocks, ∃ c ∈ N.blocks, c.id = b.id

theorem Splits.kept {s t : Module × LoopInfo} (h : Splits s t) (hinv : SplitInv s.1 s.2) : Kept s.1 s.2 t.1 t.2 := by
  induction h with
  | refl => exact ⟨hinv, ⟨rfl, fun _ => rfl, fun _ => rfl, fun _ _ _ _ => Iff.rfl⟩, .refl _, fun b hb => ⟨b, hb, rfl⟩⟩
  | tail _ hstep ih =>
    obtain ⟨b, hb, i, -, -, -, rfl⟩ := hstep
    refine ⟨splitBlock_splitInv ih.inv hb i.id, ⟨?_, ?_, ?_, ?_⟩, ih.insts.trans (splitBlock_sameInsts ih.inv.ids hb i.id), ?_⟩
    · exact (LoopInfo.splitUpdate_length ..).trans ih.nest.length
    · exact fun m => (updated_header ..).trans (ih.nest.header m)
    · exact fun m => (updated_parent ..).trans (ih.nest.parent m)
    · intro m hm x hx
      obtain ⟨c, hc, hcx⟩ := ih.blocks x hx
      have hne : x.id ≠ _ := hcx ▸ Nat.ne_of_lt (ih.inv.ids.blocks_lt c hc)
      rw [LoopInfo.splitUpdate_blocksOf ih.inv.loops _ _ (ih.nest.length ▸ hm), ← ih.nest.old m hm x hx]
      exact or_iff_left fun hn => hne hn.1
    · intro x hx
      obtain ⟨c, hc, hcx⟩ := ih.blocks x hx
      obtain ⟨d, hd, hdc⟩ := (splitBlock_grows ih.inv hb i.id).blocks c hc
      exact ⟨d, hd, hdc.trans hcx⟩

/- A run of splits. -/
theorem Splits.rightLoops {s t : Module × LoopInfo} (h : Splits s t) (hM : s.1.WF) (hex : EdgesExist s.1)
    (hLI : RightLoops s.1 s.2) : t.1.WF ∧ EdgesExist t.1 ∧ RightLoops t.1 t.2 := by
  induction h with
  | refl => exact ⟨hM, hex, hLI⟩
  | tail _ hstep ih =>
    obtain ⟨hwf, hex', hLI'⟩ := ih
    obtain ⟨b, hb, i, hi, hphi, hpad, rfl⟩ := hstep
    obtain ⟨xs, ys, hsplit⟩ := List.append_of_mem hi
    have hnode := splitBlock_nodeSplit hwf.toIds hb hsplit hphi hpad
    exact ⟨splitBlock_wf hwf b.id i.id, split_edgesExist hwf hex' hb i.id hnode,
      updated_rightLoops hwf.toIds hLI' hex' (splitBlock_ids hwf.toIds b.id i.id) hnode
        (fun _ => isEntryBlock_of_faces (splitBlock_face _ b.id i.id))⟩

end Step

/- The pass changes nothing when it says so. Otherwise the loops of `LoopInfo` are those of the new control flow, in
the same nest with the same headers. -/
theorem perform_rightLoops (addr : BlockId → Nat) (infos : LoopId → Option IteratorInfo) (isDeclaration : Bool)
    (whiteList : Option (List String)) (name : String) {M : Module} {LI : LoopInfo} (hM : M.WF) (hinv : SplitInv M LI)
    (hpt : ∀ b ∈ M.blocks, b.HasInsertionPt) (hex : EdgesExist M) (hLI : RightLoops M LI) :
    ∃ r, perform addr infos isDeclaration whiteList name M LI = some r ∧
      (r.1 = false → r.2 = (M, LI)) ∧ RightLoops r.2.1 r.2.2 ∧ SameNest M LI r.2.2 := by
  obtain ⟨r, hr⟩ := perform_exists addr infos isDeclaration whiteList name hinv hpt
  have hsplits := perform_splits hinv hr
  obtain ⟨-, -, hright⟩ := hsplits.rightLoops hM hex hLI
  refine ⟨r, hr, fun hsame => ?_, hright, (hsplits.kept hinv).nest⟩
  unfold perform at hr
  split at hr
  · obtain rfl := Option.some.inj hr
    rfl
  · rw [separateLoops_unchanged _ hr hsame]

/- After the pass every block of every loop with iterator info is homogeneous with respect to that loop's own
info. The loops are the old ones in the old nest, and their blocks hold the old instructions, the branches between
the pieces of a block apart. -/
theorem perform_homogeneous (addr : BlockId → Nat) (infos : LoopId → Option IteratorInfo)
    (whiteList : Option (List String)) (name : String) (M : Module) (LI : LoopInfo)
    (hinv : SplitInv M LI) (hlisted : ∀ ws, whiteList = some ws → name ∈ ws) :
    ((∀ b ∈ M.blocks, b.HasInsertionPt) → (perform addr infos false whiteList name M LI).isSome) ∧
    ∀ r, perform addr infos false whiteList name M LI = some r → Kept M LI r.2.1 r.2.2 ∧
      ∀ l < r.2.2.loops.length, ∀ info, infos l = some info →
        ∀ b ∈ r.2.1.blocks, b.id ∈ r.2.2.blocksOf l → Homogeneous info b.insts := by
  constructor
  · intro hpt
    exact Option.isSome_iff_exists.mpr (perform_exists addr infos false whiteList name hinv hpt)
  · intro r hr
    refine ⟨(perform_splits hinv hr).kept hinv, ?_⟩
    rw [perform_listed addr infos hlisted] at hr
    obtain ⟨-, hg, hs⟩ := separateLoops_run hinv (Nat.le_refl _) hr
    intro l hl info hi b hb hbl
    exact hs l (hg.length ▸ hl) info hi b hb hbl

theorem perform_homogeneous_counterLoop :
    ((∀ b ∈ counterLoop.blocks, b.HasInsertionPt) →
      (perform id (fun _ => some counterInfo) false none "f" counterLoop counterLoops).isSome) ∧
    ∀ r, perform id (fun _ => some counterInfo) false none "f" counterLoop counterLoops = some r →
      Kept counterLoop counterLoops r.2.1 r.2.2 ∧
      ∀ l < r.2.2.loops.length, ∀ info, some counterInfo = some info →
        ∀ b ∈ r.2.1.blocks, b.id ∈ r.2.2.blocksOf l → Homogeneous info b.insts :=
  perform_homogeneous id (fun _ => some counterInfo) none "f" counterLoop counterLoops
    counterLoop_splitInv (fun _ h => nomatch h)

example : (perform id (fun _ => some counterInfo) false none "f" counterLoop counterLoops).map
    (fun r => r.2.1.blocks.map fun b => (b.id, b.insts.map Inst.id)) =
    some [(0, [20]), (1, [21, 31]), (31, [22, 30]), (30, [23, 24]), (2, [25])] := by decide

theorem counterLoop_rightLoops : RightLoops counterLoop counterLoops where
  toWF := counterLoop_splitInv.loops
  parent_lt := by
    intro m p hp
    cases m with
    | zero => cases hp
    | succ m => cases hp
  bbMap_lt := by
    intro b m hm
    simp only [counterLoops, Option.ite_none_right_eq_some, Option.some.injEq] at hm
    rw [← hm.2]
    decide
  header := by
    intro m h hh
    cases m with
    | zero =>
      obtain rfl := Option.some.inj hh
      rfl
    | succ m => cases hh
  entry := by
    have hall : ∀ m < counterLoops.loops.length, ∀ x ∈ counterLoop.blocks, ∀ y ∈ x.succs,
        y ∈ counterLoops.blocksOf m → x.id ∉ counterLoops.blocksOf m → counterLoops.headerOf m = some y := by decide
    exact fun m hm x hx _ => hall m hm x hx
  goesRound := by
    intro m hm h hh
    cases m with
    | succ m => cases hh
    | zero =>
      obtain rfl := Option.some.inj hh
      have honly : ∀ x ∈ {b | b ∈ counterLoops.blocksOf 0}, x = 1 := fun x hx => List.mem_singleton.mp hx
      refine ⟨List.mem_singleton_self 1, fun x hx => ?_, fun x hx => ?_⟩
      · rw [honly x hx]
        exact .refl
      · rw [honly x hx]
        exact ⟨1, .refl, by unfold Edge; decide⟩

theorem counterLoop_edgesExist : EdgesExist counterLoop := by
  intro a c he
  obtain ⟨x, hx, -, hc⟩ := (edge_iff counterLoop_splitInv.ids).mp he
  have hall : ∀ x ∈ counterLoop.blocks, ∀ c ∈ x.succs, ∃ y ∈ counterLoop.blocks, y.id = c := by decide
  exact hall x hx c hc

theorem perform_rightLoops_counterLoop :
    ∃ r, perform id (fun _ => some counterInfo) false none "f" counterLoop counterLoops = some r ∧
      (r.1 = false → r.2 = (counterLoop, counterLoops)) ∧ RightLoops r.2.1 r.2.2 ∧
      SameNest counterLoop counterLoops r.2.2 :=
  perform_rightLoops id (fun _ => some counterInfo) false none "f" counterLoop_wf counterLoop_splitInv (by decide)
    counterLoop_edgesExist counterLoop_rightLoops

end Atrox
