import Mathlib.Logic.Relation
import Atrox.IR.DominatorTree
import Atrox.Lib.Folds
import Atrox.Transforms.SplitPieces

/-!
# The separation pass with its dominator tree (BlockSeparator.cpp, BlockSeparatorPass.cpp)

`SplitBlock` keeps the tree that it is given up to date. The tree is handed down from `perform` and read nowhere
else, so the pass without it is the pass with it, the tree forgotten.
-/

namespace Atrox
open IR

/- The state of the splits with the tree. -/
structure TreeState extends SplitState where
  DT : DominatorTree

/- `SplitBlock(oldBB, splitI, DT, LI)` and the label of the new block. -/
def splitPointDT (old : BlockId) (st : TreeState) (p : ModeChangePoint) : TreeState where
  toSplitState := splitPoint old st.toSplitState p
  DT := st.DT.splitUpdate old st.M.nextId

/- One round of `SplitAtPartitionPoints`. -/
def splitEntryDT (st : TreeState) (e : BlockId × List ModeChangePoint) : TreeState :=
  let rev := e.2.reverse
  let st := rev.foldl (splitPointDT e.1) st
  match rev.getLast? with
  | none => st
  | some p => { st with modes := emplaceMode st.modes e.1 (invertMode p.2) }

/- `SplitAtPartitionPoints`. -/
def splitAtPartitionPointsDT (addr : BlockId → Nat) (points : ModeChangePointMap) (st : TreeState) : TreeState :=
  (points.insertionSort fun x y => addr x.1 ≤ addr y.1).foldl splitEntryDT st

/- One round of the loop over the loops. -/
def separateLoopDT (addr : BlockId → Nat) (infos : LoopId → Option IteratorInfo)
    (st : Bool × Module × LoopInfo × DominatorTree) (l : LoopId) : Option (Bool × Module × LoopInfo × DominatorTree) :=
  match infos l with
  | none => some st
  | some info => (findPartitionPoints st.2.1 (st.2.2.1.blocksOf l) info ∅ []).map fun found =>
    if found.2.isEmpty then st else
      let s := splitAtPartitionPointsDT addr found.2 ⟨⟨st.2.1, st.2.2.1, found.1⟩, st.2.2.2⟩
      (true, s.M, s.LI, s.DT)

/- `BlockSeparatorPass::perform` with all its arguments but the memory dependences, which `infos` stands for. -/
def performDT (addr : BlockId → Nat) (infos : LoopId → Option IteratorInfo) (isDeclaration : Bool)
    (whiteList : Option (List String)) (name : String) (M : Module) (LI : LoopInfo) (DT : DominatorTree) :
    Option (Bool × Module × LoopInfo × DominatorTree) :=
  if isDeclaration || whiteList.any fun ws => name ∉ ws then some (false, M, LI, DT)
  else (List.range LI.loops.length).foldlM (separateLoopDT addr infos) (false, M, LI, DT)

section Forget

theorem splitPoints_forget (old : BlockId) (ps : List ModeChangePoint) (st : TreeState) :
    (ps.foldl (splitPointDT old) st).toSplitState = ps.foldl (splitPoint old) st.toSplitState := by
  induction ps generalizing st with
  | nil => rfl
  | cons p ps ih => exact ih (splitPointDT old st p)

theorem splitEntry_forget (st : TreeState) (e : BlockId × List ModeChangePoint) :
    (splitEntryDT st e).toSplitState = splitEntry st.toSplitState e := by
  have hpoints := splitPoints_forget e.1 e.2.reverse st
  unfold splitEntryDT splitEntry
  dsimp only
  rw [← hpoints]
  cases e.2.reverse.getLast? <;> rfl

theorem splitEntries_forget (es : ModeChangePointMap) (st : TreeState) :
    (es.foldl splitEntryDT st).toSplitState = es.foldl splitEntry st.toSplitState := by
  induction es generalizing st with
  | nil => rfl
  | cons e es ih =>
    rw [List.foldl_cons, List.foldl_cons, ih, splitEntry_forget]

/- The state without the tree. -/
def forgetTree (st : Bool × Module × LoopInfo × DominatorTree) : Bool × Module × LoopInfo := (st.1, st.2.1, st.2.2.1)

variable (addr : BlockId → Nat) (infos : LoopId → Option IteratorInfo)

theorem separateLoop_forget (st : Bool × Module × LoopInfo × DominatorTree) (l : LoopId) :
    (separateLoopDT addr infos st l).map forgetTree = separateLoop addr infos (forgetTree st) l := by
  unfold separateLoopDT separateLoop
  cases infos l with
  | none => rfl
  | some info =>
    dsimp only [forgetTree]
    rw [Option.map_map]
    congr 1
    funext found
    dsimp only [Function.comp_apply]
    split
    · rfl
    · rw [splitAtPartitionPoints, ← splitEntries_forget _ ⟨⟨st.2.1, st.2.2.1, found.1⟩, st.2.2.2⟩]
      rfl

theorem separateLoops_forget (ls : List LoopId) (st : Bool × Module × LoopInfo × DominatorTree) :
    (ls.foldlM (separateLoopDT addr infos) st).map forgetTree = ls.foldlM (separateLoop addr infos) (forgetTree st) := by
  induction ls generalizing st with
  | nil => rfl
  | cons l ls ih =>
    rw [List.foldlM_cons, List.foldlM_cons, ← separateLoop_forget]
    cases separateLoopDT addr infos st l with
    | none => rfl
    | some s => exact ih s

theorem perform_forget (isDeclaration : Bool) (whiteList : Option (List String)) (name : String) (M : Module)
    (LI : LoopInfo) (DT : DominatorTree) : (performDT addr infos isDeclaration whiteList name M LI DT).map forgetTree =
      perform addr infos isDeclaration whiteList name M LI := by
  unfold performDT perform
  split
  · rfl
  · exact separateLoops_forget addr infos _ _

end Forget

section Run

/- A split in front of an instruction that is no PHI and no pad, with its loops and its tree. -/
def TreeSplitsTo (s t : Module × LoopInfo × DominatorTree) : Prop :=
  ∃ b ∈ s.1.blocks, ∃ i ∈ b.insts, i.isPHI = false ∧ i.op.isEHPad = false ∧
    t = ((s.1.splitBlock b.id i.id).1, s.2.1.splitUpdate b.id s.1.nextId, s.2.2.splitUpdate b.id s.1.nextId)

/- Such splits one after the other. -/
abbrev TreeSplits : Module × LoopInfo × DominatorTree → Module × LoopInfo × DominatorTree → Prop :=
  Relation.ReflTransGen TreeSplitsTo

/- What a run of splits starts from and ends with. -/
def TreeState.whole (st : TreeState) : Module × LoopInfo × DominatorTree := (st.M, st.LI, st.DT)

variable {info : IteratorInfo} {l : LoopId}

/- A pending point is an instruction that is no PHI. -/
theorem splitPoint_splits {pend : BlockId → List InstId} {st : TreeState} {old : BlockId} {p : ModeChangePoint}
    {ps : List InstId} (h : Pending info l pend st.M st.LI) (hp : pend old = p.1 :: ps) :
    TreeSplitsTo st.whole (splitPointDT old st p).whole := by
  obtain ⟨hold, b, hb, rfl⟩ := h.known old (by simp [hp])
  have hsep := h.separates b hb hold
  rw [hp] at hsep
  obtain ⟨xs, i, ys, hins, hid, hphi, -, -⟩ := hsep
  have hi : i ∈ b.insts := by
    rw [hins]
    simp
  refine ⟨b, hb, i, hi, hphi, h.inv.noEHPad b hb i hi, ?_⟩
  rw [splitPointDT, splitPoint, hid]
  rfl

theorem splitPoints_splits (ps : List ModeChangePoint) {pend : BlockId → List InstId} {st : TreeState}
    {old : BlockId} (h : Pending info l pend st.M st.LI) (hp : pend old = ps.map Prod.fst) :
    TreeSplits st.whole (ps.foldl (splitPointDT old) st).whole := by
  induction ps generalizing st pend with
  | nil => exact .refl
  | cons p ps ih =>
    obtain ⟨h₁, -⟩ := splitPoint_pending h hp
    exact .head (splitPoint_splits h hp) (ih h₁ (Function.update_self ..))

/- Once a block is done, the points of the others are left. -/
theorem pendingOf_tail {es : ModeChangePointMap} {b : BlockId} {ps : List ModeChangePoint}
    (hb : b ∉ es.map Prod.fst) : Function.update (pendingOf ((b, ps) :: es)) b [] = pendingOf es := by
  funext n
  by_cases hn : n = b
  · subst hn
    have hnone : es.lookup n = none := List.lookup_eq_none_iff.mpr fun e he => by
      simpa using fun h : n = e.1 => hb (h ▸ List.mem_map_of_mem he)
    rw [Function.update_self, pendingOf, hnone]
    rfl
  · rw [Function.update_of_ne hn, pendingOf, pendingOf, List.lookup_cons, beq_eq_false_iff_ne.mpr hn]

theorem splitEntries_splits {es : ModeChangePointMap} (st : TreeState) (hnd : (es.map Prod.fst).Nodup)
    (h : Pending info l (pendingOf es) st.M st.LI) : TreeSplits st.whole (es.foldl splitEntryDT st).whole := by
  induction es generalizing st with
  | nil => exact .refl
  | cons e es ih =>
    obtain ⟨b, ps⟩ := e
    rw [List.map_cons, List.nodup_cons] at hnd
    have hsame : (splitEntryDT st (b, ps)).whole = (ps.reverse.foldl (splitPointDT b) st).whole := by
      unfold splitEntryDT
      dsimp only
      split <;> rfl
    have hpend : pendingOf ((b, ps) :: es) b = ps.reverse.map Prod.fst := by simp [pendingOf]
    have hs := splitPoints_splits ps.reverse h hpend
    obtain ⟨h₁, -⟩ := splitPoints_pending ps.reverse h hpend
    rw [pendingOf_tail hnd.1, ← splitPoints_forget] at h₁
    rw [← hsame] at hs
    refine hs.trans (ih _ hnd.2 ?_)
    have hM : (splitEntryDT st (b, ps)).M = _ := congrArg Prod.fst hsame
    have hLI : (splitEntryDT st (b, ps)).LI = _ := congrArg (fun s => s.2.1) hsame
    rw [hM, hLI]
    exact h₁

variable {addr : BlockId → Nat} {infos : LoopId → Option IteratorInfo}

theorem separateLoop_splits {st r : Bool × Module × LoopInfo × DominatorTree} (h : SplitInv st.2.1 st.2.2.1)
    (hl : l < st.2.2.1.loops.length) (hr : separateLoopDT addr infos st l = some r) : TreeSplits st.2 r.2 := by
  unfold separateLoopDT at hr
  cases hi : infos l with
  | none =>
    rw [hi] at hr
    obtain rfl := Option.some.inj hr
    exact .refl
  | some info =>
    rw [hi] at hr
    obtain ⟨found, hfound, rfl⟩ := Option.map_eq_some_iff.mp hr
    obtain ⟨hkeys, hpend⟩ := findPartitionPoints_pending h hl hfound
    split
    · exact .refl
    · -- the order of the addresses does not matter
      have hperm := List.perm_insertionSort (fun x y : BlockId × List ModeChangePoint =>
        addr x.1 ≤ addr y.1) found.2
      have hkeys' := ((hperm.map Prod.fst).nodup_iff).mpr hkeys
      have hsame : pendingOf (found.2.insertionSort fun x y => addr x.1 ≤ addr y.1) = pendingOf found.2 := by
        funext b
        rw [pendingOf, pendingOf, lookup_of_perm hperm hkeys']
      exact splitEntries_splits ⟨⟨st.2.1, st.2.2.1, found.1⟩, st.2.2.2⟩ hkeys' (hsame.symm ▸ hpend)

theorem performDT_splits {isDeclaration : Bool} {whiteList : Option (List String)} {name : String} {M : Module}
    {LI : LoopInfo} {DT : DominatorTree} (h : SplitInv M LI) {r : Bool × Module × LoopInfo × DominatorTree}
    (hr : performDT addr infos isDeclaration whiteList name M LI DT = some r) : TreeSplits (M, LI, DT) r.2 := by
  unfold performDT at hr
  split at hr
  · obtain rfl := Option.some.inj hr
    exact .refl
  · suffices hrun : ∀ n ≤ LI.loops.length, ∀ r,
        (List.range n).foldlM (separateLoopDT addr infos) (false, M, LI, DT) = some r → TreeSplits (M, LI, DT) r.2 from
      hrun _ (Nat.le_refl _) r hr
    intro n hn
    induction n with
    | zero =>
      intro r hr
      obtain rfl := Option.some.inj hr
      exact .refl
    | succ n ih =>
      intro r hr
      rw [List.range_succ, List.foldlM_append] at hr
      obtain ⟨s, hs, hstep⟩ := Option.bind_eq_some_iff.mp hr
      rw [List.foldlM_cons] at hstep
      obtain ⟨r', hr', hlast⟩ := Option.bind_eq_some_iff.mp hstep
      obtain rfl := Option.some.inj hlast
      -- the run over the loops before, without its tree
      have hforget := separateLoops_forget addr infos (List.range n) (false, M, LI, DT)
      rw [hs] at hforget
      obtain ⟨hinv, hg, -⟩ := separateLoops_run h (Nat.le_of_succ_le hn) hforget.symm
      exact (ih (Nat.le_of_succ_le hn) s hs).trans (separateLoop_splits hinv (hg.length ▸ hn) hr')

/- Each half of a split block has something to insert in front of. -/
theorem TreeSplitsTo.hasInsertionPt {s t : Module × LoopInfo × DominatorTree} (h : TreeSplitsTo s t)
    (hinv : SplitInv s.1 s.2.1) (hpt : ∀ b ∈ s.1.blocks, b.HasInsertionPt) :
    SplitInv t.1 t.2.1 ∧ ∀ b ∈ t.1.blocks, b.HasInsertionPt := by
  obtain ⟨b, hb, i, hi, hphi, hpad, rfl⟩ := h
  have hinv' := splitBlock_splitInv hinv hb i.id
  obtain ⟨xs, ys, hsplit⟩ := List.append_of_mem hi
  have hk : b.splitIndex i.id = xs.length := splitIndex_eq hsplit (block_insts_nodup hinv.ids hb) hphi hpad
  refine ⟨hinv', fun c hc => ?_⟩
  -- an instruction of the half that is no PHI
  suffices hcore : ∃ is : List Inst, c.insts.map Inst.core = is.map Inst.core ∧ ∃ j ∈ is, j.isPHI = false by
    obtain ⟨is, he, j, hj, hjphi⟩ := hcore
    obtain ⟨u, hu, huj⟩ := mem_of_core he hj
    exact (hasInsertionPt_iff (hinv'.phisFirst c hc) (hinv'.noEHPad c hc)).mpr ⟨u, hu, (isPHI_of_core huj).trans hjphi⟩
  rcases splitBlock_cases hinv.ids hb i.id hc with ⟨b₀, hb₀, -, -, he⟩ | ⟨-, he⟩ | ⟨-, he⟩
  · exact ⟨_, he, (hasInsertionPt_iff (hinv.phisFirst b₀ hb₀) (hinv.noEHPad b₀ hb₀)).mp (hpt b₀ hb₀)⟩
  · exact ⟨_, he, _, List.mem_append_right _ (List.mem_singleton_self _), rfl⟩
  · refine ⟨_, he, i, ?_, hphi⟩
    rw [hk, hsplit, List.drop_left]
    exact List.mem_cons_self ..

theorem TreeSplits.hasInsertionPt {s t : Module × LoopInfo × DominatorTree} (h : TreeSplits s t)
    (hinv : SplitInv s.1 s.2.1) (hpt : ∀ b ∈ s.1.blocks, b.HasInsertionPt) :
    SplitInv t.1 t.2.1 ∧ ∀ b ∈ t.1.blocks, b.HasInsertionPt := by
  induction h with
  | refl => exact ⟨hinv, hpt⟩
  | tail _ hstep ih => exact hstep.hasInsertionPt ih.1 ih.2

/- The pass comes to an end when every block has an insertion point. -/
theorem performDT_exists (addr : BlockId → Nat) (infos : LoopId → Option IteratorInfo) (isDeclaration : Bool)
    (whiteList : Option (List String)) (name : String) {M : Module} {LI : LoopInfo} (DT : DominatorTree)
    (h : SplitInv M LI) (hpt : ∀ b ∈ M.blocks, b.HasInsertionPt) :
    ∃ r, performDT addr infos isDeclaration whiteList name M LI DT = some r := by
  unfold performDT
  split
  · exact ⟨_, rfl⟩
  · refine (Lib.foldlM_total (P := fun _ st => SplitInv st.2.1 st.2.2.1 ∧ (∀ b ∈ st.2.1.blocks, b.HasInsertionPt) ∧
      st.2.2.1.loops.length = LI.loops.length) _ ?_ ⟨h, hpt, rfl⟩).imp fun _ => And.left
    intro pre l post st hls ⟨hinv, hpts, hlen⟩
    have hl : l < st.2.2.1.loops.length := by
      rw [hlen, ← List.mem_range, hls]
      exact List.mem_append_right _ (List.mem_cons_self ..)
    have hstep : ∃ r, separateLoopDT addr infos st l = some r := by
      unfold separateLoopDT
      cases infos l with
      | none => exact ⟨_, rfl⟩
      | some info =>
        dsimp only
        rw [findPartitionPoints_eq, if_pos fun b hb => hpts b ((mem_region hinv.ids).mp hb).1]
        exact ⟨_, rfl⟩
    obtain ⟨r, hr⟩ := hstep
    obtain ⟨hinv', hpts'⟩ := (separateLoop_splits hinv hl hr).hasInsertionPt hinv hpts
    have hforget := separateLoop_forget addr infos st l
    rw [hr] at hforget
    obtain ⟨-, hg, -⟩ := separateLoop_step hinv hl hforget.symm
    exact ⟨r, hr, hinv', hpts', hg.length.trans hlen⟩

end Run

end Atrox
