import Atrox.Analysis.PayloadTree
import Atrox.Lib.SetVector

/-!
# Block selectors (NaiveSelector, IteratorRecognitionSelector, WeightedIteratorRecognitionSelector)

The three ways to choose blocks of a loop body. `rpoOf` gives the order of
`LoopBlocksRPO` for each loop, and `infoOrError` tells, when there is iterator
information for the loop, which of its blocks hold payload only.
-/

namespace Atrox
open IR Lib

/- `NaiveSelector::calculate`. -/
def naiveSelector (M : Module) (LI : LoopInfo) (l : LoopId) : List BlockId :=
  (LI.blocksOf l).filter fun e => !(LI.headerOf l = some e || LI.isLoopLatch M l e)

def getPayloadOnlyBlocks (LI : LoopInfo) (l : LoopId) (info : BlockId → Bool) : List BlockId :=
  (LI.blocksOf l).filter info

def hasPayloadOnlyBlocks (LI : LoopInfo) (l : LoopId) (info : BlockId → Bool) : Bool :=
  (LI.blocksOf l).all info

/- `blocks` without the header and the latches. -/
def bodyBlocks (M : Module) (LI : LoopInfo) (l : LoopId) (rpo : List BlockId) : List BlockId :=
  rpo.filter fun b => LI.headerOf l ≠ some b ∧ b ∉ LI.getLoopLatches M l

section Recognition

/- The loop over the blocks; each `break` is a return of `selected`. -/
def selectBlocks (LI : LoopInfo) (l : LoopId) (rpoOf : LoopId → List BlockId) (info : BlockId → Bool)
    (payload : List BlockId) : List BlockId → SetVector BlockId → SetVector BlockId
  | [], selected => selected
  | bb :: bbs, selected =>
    if bb ∈ selected then selectBlocks LI l rpoOf info payload bbs selected
    else if LI.headerOf l = some bb then selectBlocks LI l rpoOf info payload bbs (selected.insert bb)
    else if LI.isLoopHeader bb then
      match LI.getLoopFor bb with
      | none => selected
      | some innerLoop =>
        if hasPayloadOnlyBlocks LI innerLoop info then
          selectBlocks LI l rpoOf info payload bbs (selected.insertAll (rpoOf innerLoop))
        else selected
    else if bb ∈ payload then selectBlocks LI l rpoOf info payload bbs (selected.insert bb)
    else selected

/- `IteratorRecognitionSelector::calculate`. -/
def iteratorSelector (M : Module) (LI : LoopInfo) (l : LoopId) (rpoOf : LoopId → List BlockId)
    (infoOrError : Option (BlockId → Bool)) : List BlockId :=
  match infoOrError with
  | none => []
  | some info =>
    (selectBlocks LI l rpoOf info (getPayloadOnlyBlocks LI l info) (bodyBlocks M LI l (rpoOf l)) ∅).elems

end Recognition

section Weights

/- What the visitor adds for an instruction (`WeightedPayloadType`). -/
def instWeight (i : Inst) : Nat :=
  match i.op with
  | .load | .store | .alloca | .getElementPtr => 20
  | .cast => 1
  | .call c _ =>
    match c.bind Callee.intrinsic with
    | some .dbgValue | some .dbgDeclare | some .dbgLabel => 1
    | some .memset | some .memcpy | some .memmove => 20
    | _ => 35
  | .br => if i.isUncondBr then 0 else 2
  | _ => 2

/- `PayloadWeightTy` is `unsigned`. -/
def unsignedSum (ws : List Nat) : Nat := ws.foldl (fun s w => (s + w) % 2 ^ 32) 0

/- `CalculatePayloadWeight`; a block without an entry counts for nothing. -/
def calculatePayloadWeight (M : Module) (payload : List BlockId) (b : BlockId) : Nat :=
  if b ∈ payload then unsignedSum (((M.block? b).map fun x => x.insts.map instWeight).getD []) else 0

def treeWeight (weights : BlockId → Nat) (tree : BlockId × List BlockId) : Nat :=
  unsignedSum (tree.2.map weights)

/- `std::max_element`: the first of the largest. Its end is dereferenced when there is no tree. -/
def maxElement (weights : BlockId → Nat) : RootGroups → Option (BlockId × List BlockId)
  | [] => none
  | t :: ts => some (ts.foldl (fun m e => if treeWeight weights m < treeWeight weights e then e else m) t)

/- The part of `WeightedIteratorRecognitionSelector::calculate` after the weights. -/
def heaviestTree (addr : BlockId → Nat) (pick : BlockId → Nat → Nat) (weights : BlockId → Nat) (M : Module)
    (LI : LoopInfo) (l : LoopId) (payload : List BlockId) : Option (List BlockId) := do
  let trees ← selectPayloadTrees addr pick M LI l payload
  let m ← maxElement weights trees
  return m.2

/- `WeightedIteratorRecognitionSelector::calculate`. -/
def weightedSelector (addr : BlockId → Nat) (pick : BlockId → Nat → Nat) (M : Module) (LI : LoopInfo)
    (l : LoopId) (infoOrError : Option (BlockId → Bool)) : Option (List BlockId) :=
  match infoOrError with
  | none => some []
  | some info =>
    let payload := getPayloadOnlyBlocks LI l info
    heaviestTree addr pick (calculatePayloadWeight M payload) M LI l payload

end Weights

section Spec

/- What `LoopBlocksRPO` gives, as far as the scan is covered by it: each block of the loop once, and a header
before the other blocks of its loop. Nothing is said of other edges; `ForwardOrder` orders those. -/
structure ReversePostOrder (LI : LoopInfo) (l : LoopId) (rpo : List BlockId) : Prop where
  nodup : rpo.Nodup
  mem : ∀ b, b ∈ rpo ↔ b ∈ LI.blocksOf l
  header_first : ∀ m h, LI.headerOf m = some h → l ∈ LI.enclosing m → ∀ b ∈ LI.blocksOf m, b ≠ h →
    rpo.idxOf h < rpo.idxOf b

/- Loops that list their blocks in that order. -/
theorem reversePostOrder_blocksOf {M : Module} {LI : LoopInfo} (hLI : LI.Natural M)
    (hfirst : ∀ l < LI.loops.length, ∀ m < LI.loops.length, ∀ h ∈ (LI.headerOf m).toList, l ∈ LI.enclosing m →
      ∀ b ∈ LI.blocksOf m, b ≠ h → (LI.blocksOf l).idxOf h < (LI.blocksOf l).idxOf b) (l : LoopId) :
    ReversePostOrder LI l (LI.blocksOf l) where
  nodup := by
    by_cases hl : l < LI.loops.length
    · exact hLI.blocks_nodup l hl
    · rw [LoopInfo.blocksOf, List.getElem?_eq_none (Nat.le_of_not_lt hl)]
      exact List.nodup_nil
  mem := fun _ => Iff.rfl
  header_first := fun m h hh hlm b hb hne => by
    have hm := (LoopInfo.header_mem hLI hh).1
    have hl := (LoopInfo.enclosing_suffix hLI hm hlm).1
    exact hfirst l hl m hm h (Option.mem_toList.mpr hh) hlm b hb hne

/- The scan goes on over this block. -/
def isClean (LI : LoopInfo) (info : BlockId → Bool) (bb : BlockId) : Bool :=
  if LI.isLoopHeader bb then ((LI.getLoopFor bb).map fun m => hasPayloadOnlyBlocks LI m info).getD false
  else info bb

/- What is selected with it: the loop it is the header of, or itself. -/
def takenWith (LI : LoopInfo) (bb : BlockId) : List BlockId :=
  if LI.isLoopHeader bb then ((LI.getLoopFor bb).map LI.blocksOf).getD [] else [bb]

/- The blocks up to the one that stops the scan. -/
def cleanBlocks (M : Module) (LI : LoopInfo) (l : LoopId) (rpo : List BlockId) (info : BlockId → Bool) :
    List BlockId := (bodyBlocks M LI l rpo).takeWhile (isClean LI info)

variable {M : Module} {LI : LoopInfo} {l : LoopId} {info : BlockId → Bool} {rpoOf : LoopId → List BlockId}

theorem takenWith_header (hLI : LI.Natural M) {m : LoopId} {h : BlockId} (hh : LI.headerOf m = some h) :
    takenWith LI h = LI.blocksOf m := by
  have hb := hLI.header m h hh
  have hhead : LI.isLoopHeader h = true := LoopInfo.isLoopHeader_iff.mpr ⟨m, hb, hh⟩
  have hfor : LI.getLoopFor h = some m := hb
  simp only [takenWith, hhead, if_true, hfor, Option.map_some, Option.getD_some]

theorem isClean_header (hLI : LI.Natural M) {m : LoopId} {h : BlockId} (hh : LI.headerOf m = some h) :
    isClean LI info h = hasPayloadOnlyBlocks LI m info := by
  have hb := hLI.header m h hh
  have hhead : LI.isLoopHeader h = true := LoopInfo.isLoopHeader_iff.mpr ⟨m, hb, hh⟩
  have hfor : LI.getLoopFor h = some m := hb
  simp only [isClean, hhead, if_true, hfor, Option.map_some, Option.getD_some]

theorem takenWith_cases (LI : LoopInfo) (bb : BlockId) : (LI.isLoopHeader bb = false ∧ takenWith LI bb = [bb]) ∨
    ∃ m, LI.getLoopFor bb = some m ∧ LI.headerOf m = some bb ∧ takenWith LI bb = LI.blocksOf m := by
  cases hb : LI.isLoopHeader bb with
  | false => exact .inl ⟨rfl, by simp [takenWith, hb]⟩
  | true =>
    obtain ⟨m, hm, hmh⟩ := LoopInfo.isLoopHeader_iff.mp hb
    have hfor : LI.getLoopFor bb = some m := hm
    exact .inr ⟨m, hfor, hmh, by simp [takenWith, hb, hfor]⟩

theorem self_takenWith (hLI : LI.Natural M) (bb : BlockId) : bb ∈ takenWith LI bb := by
  rcases takenWith_cases LI bb with ⟨-, h⟩ | ⟨m, -, hmh, h⟩
  · rw [h]
    exact List.mem_singleton_self bb
  · rw [h]
    exact (LoopInfo.header_mem hLI hmh).2

/- What is taken with a clean block is clean, and so is what comes with it. -/
theorem takenWith_clean (hLI : LI.Natural M) {bb b : BlockId} (hc : isClean LI info bb = true)
    (hb : b ∈ takenWith LI bb) : isClean LI info b = true ∧ ∀ c ∈ takenWith LI b, c ∈ takenWith LI bb := by
  rcases takenWith_cases LI bb with ⟨-, h⟩ | ⟨m, -, hmh, h⟩
  · rw [h, List.mem_singleton] at hb
    subst hb
    exact ⟨hc, fun _ hc => hc⟩
  · have hm := (LoopInfo.header_mem hLI hmh).1
    have hall : ∀ c ∈ LI.blocksOf m, info c = true := by
      rw [isClean_header hLI hmh] at hc
      exact List.all_eq_true.mp hc
    rw [h] at hb ⊢
    rcases takenWith_cases LI b with ⟨hno, hself⟩ | ⟨k, -, hkh, hk⟩
    · refine ⟨by simp [isClean, hno, hall b hb], fun c hc => ?_⟩
      rw [hself, List.mem_singleton] at hc
      exact hc ▸ hb
    · have hsub : ∀ c ∈ LI.blocksOf k, c ∈ LI.blocksOf m := fun c hc =>
        LoopInfo.blocksOf_sub hLI (LoopInfo.header_mem hLI hkh).1 (LoopInfo.enclosing_of_header hLI hm hkh hb) hc
      refine ⟨?_, fun c hc => hsub c (hk ▸ hc)⟩
      rw [isClean_header hLI hkh]
      exact List.all_eq_true.mpr fun c hc => hall c (hsub c hc)

/- The set the scan builds: what it has, and what comes with each block before the stop. -/
theorem selectBlocks_mem (hLI : LI.Natural M) (hrpo : ∀ m b, b ∈ rpoOf m ↔ b ∈ LI.blocksOf m)
    {bbs : List BlockId} (hbbs : ∀ bb ∈ bbs, bb ∈ LI.blocksOf l ∧ LI.headerOf l ≠ some bb)
    (selected : SetVector BlockId) (hsel : ∀ b ∈ selected, isClean LI info b = true ∧ ∀ c ∈ takenWith LI b, c ∈ selected)
    (b : BlockId) : b ∈ selectBlocks LI l rpoOf info (getPayloadOnlyBlocks LI l info) bbs selected ↔
      b ∈ selected ∨ ∃ bb ∈ bbs.takeWhile (isClean LI info), b ∈ takenWith LI bb := by
  induction bbs generalizing selected with
  | nil => simp [selectBlocks]
  | cons bb bbs ih =>
    obtain ⟨hbl, hhead⟩ := hbbs bb (List.mem_cons_self ..)
    have hrest := fun x hx => hbbs x (List.mem_cons_of_mem bb hx)
    -- the scan goes on with `bb` and what comes with it
    have hgo : ∀ {sel : SetVector BlockId}, isClean LI info bb = true →
        (∀ b, b ∈ sel ↔ b ∈ selected ∨ b ∈ takenWith LI bb) →
        (b ∈ selectBlocks LI l rpoOf info (getPayloadOnlyBlocks LI l info) bbs sel ↔
          b ∈ selected ∨ ∃ x ∈ (bb :: bbs).takeWhile (isClean LI info), b ∈ takenWith LI x) := by
      intro sel hc hmem
      rw [ih hrest sel, hmem, List.takeWhile_cons_of_pos hc, List.exists_mem_cons_iff, or_assoc]
      intro c hcs
      rcases (hmem c).mp hcs with hcs | hcs
      · obtain ⟨h1, h2⟩ := hsel c hcs
        exact ⟨h1, fun d hd => (hmem d).mpr (.inl (h2 d hd))⟩
      · obtain ⟨h1, h2⟩ := takenWith_clean hLI hc hcs
        exact ⟨h1, fun d hd => (hmem d).mpr (.inr (h2 d hd))⟩
    have hstop : isClean LI info bb ≠ true → (b ∈ selected ↔
        b ∈ selected ∨ ∃ x ∈ (bb :: bbs).takeWhile (isClean LI info), b ∈ takenWith LI x) := by
      intro hc
      rw [List.takeWhile_cons_of_neg hc]
      simp
    rw [selectBlocks]
    split
    · next hin =>
      obtain ⟨hc, hsub⟩ := hsel bb hin
      exact hgo hc fun x => ⟨.inl, fun h => h.elim (fun h => h) (hsub x)⟩
    · rcases takenWith_cases LI bb with ⟨hno, hself⟩ | ⟨m, hfor, hmh, hm⟩
      · rw [if_neg (by simp [hno])]
        have hclean : isClean LI info bb = info bb := by simp [isClean, hno]
        split
        · next hp =>
          have hinfo := (List.mem_filter.mp hp).2
          refine hgo (hclean.trans hinfo) fun x => ?_
          rw [SetVector.mem_insert, hself, List.mem_singleton]
        · next hp =>
          refine hstop fun hc => hp ?_
          exact List.mem_filter.mpr ⟨hbl, hclean ▸ hc⟩
      · have hhd : LI.isLoopHeader bb = true := LoopInfo.isLoopHeader_iff.mpr ⟨m, hfor, hmh⟩
        rw [if_pos hhd, hfor]
        dsimp only
        have hclean : isClean LI info bb = hasPayloadOnlyBlocks LI m info := isClean_header hLI hmh
        split
        · next hall =>
          refine hgo (hclean.trans hall) fun x => ?_
          rw [SetVector.mem_insertAll, hrpo, hm]
        · next hall => exact hstop fun hc => hall (hclean ▸ hc)

/- What `IteratorRecognitionSelector` returns. -/
theorem iteratorSelector_mem (hLI : LI.Natural M) (hrpo : ∀ m b, b ∈ rpoOf m ↔ b ∈ LI.blocksOf m) (b : BlockId) :
    b ∈ iteratorSelector M LI l rpoOf (some info) ↔
      ∃ bb ∈ cleanBlocks M LI l (rpoOf l) info, b ∈ takenWith LI bb := by
  have hbody : ∀ bb ∈ bodyBlocks M LI l (rpoOf l), bb ∈ LI.blocksOf l ∧ LI.headerOf l ≠ some bb := by
    intro bb hbb
    obtain ⟨h1, h2⟩ := List.mem_filter.mp hbb
    simp only [decide_eq_true_eq] at h2
    exact ⟨(hrpo l bb).mp h1, h2.1⟩
  have hmem : b ∈ selectBlocks LI l rpoOf info (getPayloadOnlyBlocks LI l info) (bodyBlocks M LI l (rpoOf l)) ∅ ↔ _ :=
    selectBlocks_mem hLI hrpo hbody ∅ (fun b hb => absurd hb (SetVector.notMem_empty b)) b
  refine hmem.trans ⟨fun h => h.elim (fun h => absurd h (SetVector.notMem_empty b)) id, .inr⟩

end Spec

section Heaviest

theorem unsignedSum_eq (ws : List Nat) : unsignedSum ws = ws.sum % 2 ^ 32 := by
  have key : ∀ (ws : List Nat) (s : Nat), ws.foldl (fun s w => (s + w) % 2 ^ 32) (s % 2 ^ 32) = (s + ws.sum) % 2 ^ 32 := by
    intro ws
    induction ws with
    | nil => intro s; rfl
    | cons w ws ih =>
      intro s
      rw [List.foldl_cons, Nat.mod_add_mod, ih, List.sum_cons, Nat.add_assoc]
  have h := key ws 0
  rw [Nat.zero_add] at h
  exact h

/- The first of the largest: what stands before is smaller, what stands behind is no larger. -/
theorem maxElement_spec {weights : BlockId → Nat} {trees : RootGroups} {m : BlockId × List BlockId}
    (h : maxElement weights trees = some m) : ∃ pre post, trees = pre ++ m :: post ∧
      (∀ t ∈ pre, treeWeight weights t < treeWeight weights m) ∧
      ∀ t ∈ post, treeWeight weights t ≤ treeWeight weights m := by
  have key : ∀ (ts pre mid : RootGroups) (t : BlockId × List BlockId),
      (∀ x ∈ pre, treeWeight weights x < treeWeight weights t) →
      (∀ x ∈ mid, treeWeight weights x ≤ treeWeight weights t) →
      ∃ pre' post', pre ++ t :: (mid ++ ts) = pre' ++ ts.foldl (fun m e =>
        if treeWeight weights m < treeWeight weights e then e else m) t :: post' ∧
        (∀ x ∈ pre', treeWeight weights x < treeWeight weights (ts.foldl (fun m e =>
          if treeWeight weights m < treeWeight weights e then e else m) t)) ∧
        ∀ x ∈ post', treeWeight weights x ≤ treeWeight weights (ts.foldl (fun m e =>
          if treeWeight weights m < treeWeight weights e then e else m) t) := by
    intro ts
    induction ts with
    | nil => exact fun pre mid t hpre hmid => ⟨pre, mid, by rw [List.append_nil]; rfl, hpre, hmid⟩
    | cons e ts ih =>
      intro pre mid t hpre hmid
      rw [List.foldl_cons]
      split
      · next hlt =>
        obtain ⟨pre', post', heq, h1, h2⟩ := ih (pre ++ t :: mid) [] e
          (fun x hx => by
            rcases List.mem_append.mp hx with hx | hx
            · exact Nat.lt_trans (hpre x hx) hlt
            · rcases List.mem_cons.mp hx with rfl | hx
              · exact hlt
              · exact Nat.lt_of_le_of_lt (hmid x hx) hlt)
          fun x hx => absurd hx List.not_mem_nil
        refine ⟨pre', post', ?_, h1, h2⟩
        rw [← heq]
        simp
      · next hle =>
        obtain ⟨pre', post', heq, h1, h2⟩ := ih pre (mid ++ [e]) t hpre fun x hx => by
          rcases List.mem_append.mp hx with hx | hx
          · exact hmid x hx
          · rw [List.mem_singleton.mp hx]
            exact Nat.le_of_not_lt hle
        refine ⟨pre', post', ?_, h1, h2⟩
        rw [← heq]
        simp
  cases trees with
  | nil => exact nomatch h
  | cons t ts =>
    obtain rfl := Option.some.inj h
    exact key ts [] [] t (fun _ hx => absurd hx List.not_mem_nil) fun _ hx => absurd hx List.not_mem_nil

theorem maxElement_le {weights : BlockId → Nat} {trees : RootGroups} {m : BlockId × List BlockId}
    (h : maxElement weights trees = some m) : m ∈ trees ∧ ∀ t ∈ trees, treeWeight weights t ≤ treeWeight weights m := by
  obtain ⟨pre, post, rfl, hpre, hpost⟩ := maxElement_spec h
  refine ⟨List.mem_append_right _ (List.mem_cons_self ..), fun t ht => ?_⟩
  rcases List.mem_append.mp ht with ht | ht
  · exact Nat.le_of_lt (hpre t ht)
  · rcases List.mem_cons.mp ht with rfl | ht
    · exact Nat.le_refl _
    · exact hpost t ht

theorem maxElement_some (weights : BlockId → Nat) {trees : RootGroups} (h : trees ≠ []) :
    ∃ m, maxElement weights trees = some m := by
  cases trees with
  | nil => exact absurd rfl h
  | cons t ts => exact ⟨_, rfl⟩

variable {M : Module} {LI : LoopInfo} {l : LoopId} {payload : List BlockId}

/- The blocks returned are a tree, and no tree weighs more. -/
theorem heaviestTree_some {addr : BlockId → Nat} {pick : BlockId → Nat → Nat} {weights : BlockId → Nat}
    {blocks : List BlockId} (h : heaviestTree addr pick weights M LI l payload = some blocks) :
    ∃ trees m, selectPayloadTrees addr pick M LI l payload = some trees ∧ m.2 = blocks ∧
      maxElement weights trees = some m := by
  obtain ⟨trees, htrees, h⟩ := Option.bind_eq_some_iff.mp h
  obtain ⟨m, hm, h⟩ := Option.bind_eq_some_iff.mp h
  exact ⟨trees, m, htrees, Option.some.inj h, hm⟩

end Heaviest

end Atrox
