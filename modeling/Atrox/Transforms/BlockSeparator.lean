import Mathlib.Data.List.AList
import Mathlib.Data.List.Induction
import Mathlib.Data.List.Sort
import Atrox.IR.Edit
import Atrox.IR.Loops

/-!
# Partition points of a loop (BlockSeparator.cpp)

`findPartitionPoints` collects, block by block, the instructions where the mode
changes; `splitAtPartitionPoints` splits the blocks there, back to front.
-/

namespace Atrox
open IR

/-- `enum class Mode`. -/
inductive Mode where
  | iterator
  | payload
  deriving DecidableEq

/-- `iteratorrecognition::IteratorInfo`: its iterator instructions. `valid` is
its conversion to `bool`. -/
structure IteratorInfo where
  isIterator : InstId → Bool
  valid : Bool

def invertMode : Mode → Mode
  | .payload => .iterator
  | .iterator => .payload

def getMode (info : IteratorInfo) (i : Inst) : Mode :=
  if info.isIterator i.id then .iterator else .payload

abbrev BlockModeMapTy := AList fun _ : BlockId => Mode
abbrev ModeChangePoint := InstId × Mode

/-- `std::map` from a block to its points, in order of insertion. -/
abbrev ModeChangePointMap := List (BlockId × List ModeChangePoint)

/-- `std::map::emplace`: a present key keeps its value. -/
def emplaceMode (modes : BlockModeMapTy) (b : BlockId) (m : Mode) : BlockModeMapTy :=
  if b ∈ modes then modes else modes.insert b m

/-- `Points.at(bb).push_back`, after an `emplace` of the empty vector. -/
def pushPoint (points : ModeChangePointMap) (b : BlockId) (p : ModeChangePoint) :
    ModeChangePointMap :=
  match points with
  | [] => [(b, [p])]
  | (c, ps) :: rest => if c = b then (c, ps ++ [p]) :: rest else (c, ps) :: pushPoint rest b p

/-- The scan of a block: where the mode differs from the last one seen. -/
def changePoints (info : IteratorInfo) (lastSeenMode : Mode) : List Inst → List ModeChangePoint
  | [] => []
  | i :: is =>
    if lastSeenMode ≠ getMode info i ∧ i.isUncondBr = false then
      (i.id, getMode info i) :: changePoints info (getMode info i) is
    else changePoints info lastSeenMode is

/-- Position of `getFirstInsertionPt`: after the PHIs and after one EH pad. -/
def firstInsertionPt (b : Block) : Nat :=
  let k := b.firstNonPHI
  match b.insts[k]? with
  | some i => if i.op.isEHPad then k + 1 else k
  | none => k

/-- There is an instruction to insert in front of: the block does not end with its EH pad. -/
def IR.Block.HasInsertionPt (b : Block) : Prop := firstInsertionPt b < b.insts.length

instance (b : Block) : Decidable b.HasInsertionPt :=
  inferInstanceAs (Decidable (firstInsertionPt b < b.insts.length))

/-- `GetMode` of the instruction an iterator stands at. The end of the block holds none. -/
def modeAt (info : IteratorInfo) (it : List Inst) : Option Mode := it.head?.map (getMode info)

/-- One round of the loop over the blocks. The iterator to the first insertion point
is dereferenced in every round. -/
def findInBlock (info : IteratorInfo) (b : Block) (modes : BlockModeMapTy)
    (points : ModeChangePointMap) : Option (BlockModeMapTy × ModeChangePointMap) := do
  let phisMode ← modeAt info b.insts
  let hasAllSameModeInstructions := b.phis.all fun p => getMode info p = phisMode
  let insertionMode ← modeAt info (b.insts.drop (firstInsertionPt b))
  let firstI := if hasAllSameModeInstructions then b.insts else b.insts.drop (firstInsertionPt b)
  let lastSeenMode := if hasAllSameModeInstructions then phisMode else insertionMode
  let points := if hasAllSameModeInstructions then points else
    match firstI with
    | [] => points
    | i :: _ => pushPoint points b.id (i.id, invertMode lastSeenMode)
  let changes := changePoints info lastSeenMode firstI
  return (if changes.isEmpty then emplaceMode modes b.id lastSeenMode else modes,
    changes.foldl (fun ps p => pushPoint ps b.id p) points)

/-- `FindPartitionPoints`: the new maps; the call returns whether there is a point. -/
def findPartitionPoints (M : Module) (loopBlocks : List BlockId) (info : IteratorInfo)
    (modes : BlockModeMapTy) (points : ModeChangePointMap) : Option (BlockModeMapTy × ModeChangePointMap) :=
  (M.region loopBlocks).foldlM (fun st b => findInBlock info b st.1 st.2) (modes, points)

/-- Module, loops and labels while blocks are split. -/
structure SplitState where
  M : Module
  LI : LoopInfo
  modes : BlockModeMapTy

/-- One `SplitBlock(oldBB, splitI, DT, LI)` and the label of the new block. -/
def splitPoint (old : BlockId) (st : SplitState) (p : ModeChangePoint) : SplitState :=
  let s := st.M.splitBlock old p.1
  { M := s.1, LI := st.LI.splitUpdate old s.2, modes := emplaceMode st.modes s.2 p.2 }

/-- One round of `SplitAtPartitionPoints`: the points of a block, reversed. -/
def splitEntry (st : SplitState) (e : BlockId × List ModeChangePoint) : SplitState :=
  let rev := e.2.reverse
  let st := rev.foldl (splitPoint e.1) st
  match rev.getLast? with
  | none => st
  | some p => { st with modes := emplaceMode st.modes e.1 (invertMode p.2) }

/-- `SplitAtPartitionPoints`. The map is walked in the order of block addresses. -/
def splitAtPartitionPoints (addr : BlockId → Nat) (points : ModeChangePointMap)
    (st : SplitState) : SplitState :=
  (points.insertionSort fun x y => addr x.1 ≤ addr y.1).foldl splitEntry st

/-! ### The scan where no end is dereferenced -/

/-- The mode a list of instructions starts with; of an empty list nothing is said. -/
def headMode (info : IteratorInfo) : List Inst → Mode
  | [] => .payload
  | i :: _ => getMode info i

/-- `hasAllSameModeInstructions` after the loop over the PHIs. -/
def phisAgree (info : IteratorInfo) (b : Block) : Bool :=
  b.phis.all fun p => getMode info p = headMode info b.insts

/-- What a round finds in a block that has an insertion point. -/
def scanBlock (info : IteratorInfo) (b : Block) (st : BlockModeMapTy × ModeChangePointMap) :
    BlockModeMapTy × ModeChangePointMap :=
  let firstI := if phisAgree info b then b.insts else b.insts.drop (firstInsertionPt b)
  let lastSeenMode := headMode info firstI
  let points := if phisAgree info b then st.2 else
    match firstI with
    | [] => st.2
    | i :: _ => pushPoint st.2 b.id (i.id, invertMode lastSeenMode)
  let changes := changePoints info lastSeenMode firstI
  (if changes.isEmpty then emplaceMode st.1 b.id lastSeenMode else st.1,
    changes.foldl (fun ps p => pushPoint ps b.id p) points)

theorem modeAt_eq_some {info : IteratorInfo} {is : List Inst} (h : is ≠ []) : modeAt info is = some (headMode info is) := by
  cases is with
  | nil => exact absurd rfl h
  | cons i is => rfl

theorem findInBlock_eq (info : IteratorInfo) (b : Block) (st : BlockModeMapTy × ModeChangePointMap) :
    findInBlock info b st.1 st.2 = if b.HasInsertionPt then some (scanBlock info b st) else none := by
  have hdrop : b.insts.drop (firstInsertionPt b) = [] ↔ ¬b.HasInsertionPt := by
    rw [List.drop_eq_nil_iff, IR.Block.HasInsertionPt, Nat.not_lt]
  unfold findInBlock
  split
  · next h =>
    have hne : b.insts.drop (firstInsertionPt b) ≠ [] := fun he => hdrop.mp he h
    have hinsts : b.insts ≠ [] := fun he => hne (by rw [he, List.drop_nil])
    rw [modeAt_eq_some hinsts, modeAt_eq_some hne]
    unfold scanBlock phisAgree
    dsimp only [Option.bind_eq_bind, Option.bind_some, Option.pure_def]
    split <;> rfl
  · next h =>
    rw [hdrop.mpr h]
    cases modeAt info b.insts <;> rfl

/-- The call comes to an end exactly when every block of the loop has an insertion point. -/
theorem findPartitionPoints_eq (info : IteratorInfo) (M : Module) (loopBlocks : List BlockId) (modes : BlockModeMapTy)
    (points : ModeChangePointMap) : findPartitionPoints M loopBlocks info modes points =
      if ∀ b ∈ M.region loopBlocks, b.HasInsertionPt then
        some ((M.region loopBlocks).foldl (fun st b => scanBlock info b st) (modes, points)) else none := by
  unfold findPartitionPoints
  generalize (modes, points) = st
  induction M.region loopBlocks generalizing st with
  | nil => rfl
  | cons b bs ih =>
    rw [List.foldlM_cons, findInBlock_eq]
    by_cases hb : b.HasInsertionPt
    · rw [if_pos hb, Option.bind_eq_bind, Option.bind_some, ih]
      simp only [List.forall_mem_cons, hb, true_and, List.foldl_cons]
    · rw [if_neg hb, if_neg fun h => hb (h b (List.mem_cons_self ..))]
      rfl

theorem findPartitionPoints_some {info : IteratorInfo} {M : Module} {loopBlocks : List BlockId} {modes : BlockModeMapTy}
    {points : ModeChangePointMap} {found : BlockModeMapTy × ModeChangePointMap}
    (h : findPartitionPoints M loopBlocks info modes points = some found) :
    (∀ b ∈ M.region loopBlocks, b.HasInsertionPt) ∧
      (M.region loopBlocks).foldl (fun st b => scanBlock info b st) (modes, points) = found := by
  rw [findPartitionPoints_eq] at h
  split at h
  · next hall => exact ⟨hall, Option.some.inj h⟩
  · cases h

/-! ### Homogeneous instruction lists -/

/-- An instruction that has to agree with its block: no PHI, no unconditional branch. -/
def Inst.isBody (i : Inst) : Bool := !i.isPHI && !i.isUncondBr

/-- All body instructions have one mode, and with one of them the PHIs have it too. -/
structure Homogeneous (info : IteratorInfo) (is : List Inst) : Prop where
  body : ∀ i ∈ is, ∀ j ∈ is, Inst.isBody i → Inst.isBody j → getMode info i = getMode info j
  phi : ∀ i ∈ is, ∀ p ∈ is, Inst.isBody i → p.isPHI → getMode info p = getMode info i

section Lists
variable (info : IteratorInfo)

theorem getMode_core (i : Inst) : getMode info i.core = getMode info i := rfl

/-- PHI edges do not matter to homogeneity. -/
theorem homogeneous_core {is js : List Inst} (h : is.map Inst.core = js.map Inst.core) :
    Homogeneous info is → Homogeneous info js := by
  have key : ∀ j ∈ js, ∃ i ∈ is, i.core = j.core := fun j hj => mem_of_core h hj
  have hbody : ∀ {i j : Inst}, i.core = j.core → Inst.isBody i = Inst.isBody j := by
    intro i j he
    have h := congrArg Inst.isUncondBr he
    simp only [core_isUncondBr] at h
    simp only [Inst.isBody, isPHI_of_core he, h]
  intro hi
  constructor
  · intro a ha b hb h1 h2
    obtain ⟨a', ha', hae⟩ := key a ha
    obtain ⟨b', hb', hbe⟩ := key b hb
    rw [← getMode_core info a, ← getMode_core info b, ← hae, ← hbe]
    exact hi.body a' ha' b' hb' (hbody hae ▸ h1) (hbody hbe ▸ h2)
  · intro a ha p hp h1 h2
    obtain ⟨a', ha', hae⟩ := key a ha
    obtain ⟨p', hp', hpe⟩ := key p hp
    rw [← getMode_core info a, ← getMode_core info p, ← hae, ← hpe]
    exact hi.phi a' ha' p' hp' (hbody hae ▸ h1) (isPHI_of_core hpe ▸ h2)

/-- A list all of whose instructions but the branches have the mode `m`. -/
theorem homogeneous_of_mode {is : List Inst} (m : Mode)
    (h : ∀ i ∈ is, i.isUncondBr = false → getMode info i = m) : Homogeneous info is := by
  have hphi : ∀ p : Inst, p.isPHI → p.isUncondBr = false := by
    intro p hp
    simp only [Inst.isPHI, decide_eq_true_eq] at hp
    simp [Inst.isUncondBr, hp]
  have hb : ∀ i : Inst, Inst.isBody i → i.isUncondBr = false := by
    intro i hi
    simp only [Inst.isBody, Bool.and_eq_true, Bool.not_eq_true'] at hi
    exact hi.2
  constructor
  · intro i hi j hj h1 h2
    rw [h i hi (hb i h1), h j hj (hb j h2)]
  · intro i hi p hp h1 h2
    rw [h i hi (hb i h1), h p hp (hphi p h2)]

/-- A piece of a homogeneous list is homogeneous, with branches added. -/
theorem homogeneous_piece {is js : List Inst} (h : Homogeneous info is)
    (hj : ∀ j ∈ js, j ∈ is ∨ j.isUncondBr = true) : Homogeneous info js := by
  have hbr : ∀ j ∈ js, Inst.isBody j → j ∈ is := by
    intro j hm hb
    rcases hj j hm with h1 | h1
    · exact h1
    · simp [Inst.isBody, h1] at hb
  have hphi : ∀ p ∈ js, p.isPHI → p ∈ is := by
    intro p hm hp
    rcases hj p hm with h1 | h1
    · exact h1
    · simp only [Inst.isPHI, decide_eq_true_eq] at hp
      simp [Inst.isUncondBr, hp] at h1
  exact ⟨fun i hi j hj h1 h2 => h.body i (hbr i hi h1) j (hbr j hj h2) h1 h2,
    fun i hi p hp h1 h2 => h.phi i (hbr i hi h1) p (hphi p hp h2) h1 h2⟩

theorem changePoints_append (m : Mode) (xs ys : List Inst) :
    changePoints info m (xs ++ ys) = changePoints info m xs ++
      changePoints info (((changePoints info m xs).getLast?.map Prod.snd).getD m) ys := by
  induction xs generalizing m with
  | nil => rfl
  | cons x xs ih =>
    simp only [List.cons_append, changePoints]
    split
    · rw [ih, List.cons_append]
      congr 3
      cases h : changePoints info (getMode info x) xs with
      | nil => rfl
      | cons p ps => rw [List.getLast?_cons_cons, List.getLast?_cons]; rfl
    · exact ih m

theorem changePoints_eq_nil {m : Mode} {is : List Inst} (h : changePoints info m is = []) :
    ∀ i ∈ is, i.isUncondBr = false → getMode info i = m := by
  induction is with
  | nil => simp
  | cons x xs ih =>
    simp only [changePoints] at h
    split at h
    · simp at h
    · next hx =>
      intro i hi hbr
      rcases List.mem_cons.mp hi with rfl | hi
      · by_contra hne
        exact hx ⟨fun he => hne he.symm, hbr⟩
      · exact ih h i hi hbr

theorem changePoints_of_mode {m : Mode} {is : List Inst}
    (h : ∀ i ∈ is, getMode info i = m) : changePoints info m is = [] := by
  induction is with
  | nil => rfl
  | cons x xs ih =>
    have hx := h x (List.mem_cons_self ..)
    simp only [changePoints, hx, ne_eq, not_true_eq_false, false_and, if_false]
    exact ih fun i hi => h i (List.mem_cons_of_mem _ hi)

/-- The last point found: what stands before it has the other points, and from
it on nothing changes any more. -/
theorem changePoints_last {m : Mode} {is : List Inst} {q : List ModeChangePoint}
    {p : ModeChangePoint} (h : changePoints info m is = q ++ [p]) :
    ∃ xs i ys, is = xs ++ i :: ys ∧ p = (i.id, getMode info i) ∧ i.isUncondBr = false ∧
      (xs = [] → m ≠ getMode info i) ∧
      changePoints info m xs = q ∧ changePoints info (getMode info i) ys = [] := by
  induction is generalizing m q with
  | nil => simp [changePoints] at h
  | cons x xs ih =>
    simp only [changePoints] at h
    split at h
    · next hx =>
      cases q with
      | nil =>
        simp only [List.nil_append, List.cons.injEq] at h
        exact ⟨[], x, xs, rfl, h.1.symm, hx.2, fun _ => hx.1, rfl, h.2⟩
      | cons q₀ q =>
        simp only [List.cons_append, List.cons.injEq] at h
        obtain ⟨as, i, ys, rfl, hp, hbr, -, h1, h2⟩ := ih h.2
        refine ⟨x :: as, i, ys, rfl, hp, hbr, by simp, ?_, h2⟩
        simp only [changePoints, if_pos hx, h1, h.1]
    · next hx =>
      obtain ⟨as, i, ys, rfl, hp, hbr, -, h1, h2⟩ := ih h
      refine ⟨x :: as, i, ys, rfl, hp, hbr, by simp, ?_, h2⟩
      simp only [changePoints, if_neg hx, h1]

/-- Cutting the list at the given instructions, last one first and with a branch
closing each head, leaves homogeneous pieces only. -/
def Separates : List InstId → List Inst → Prop
  | [], is => Homogeneous info is
  | p :: ps, is => ∃ xs i ys, is = xs ++ i :: ys ∧ i.id = p ∧ i.isPHI = false ∧
      Homogeneous info (i :: ys) ∧
      ∀ br : Inst, br.isUncondBr = true → Separates ps (xs ++ [br])

theorem separates_core {ps : List InstId} {is js : List Inst}
    (h : is.map Inst.core = js.map Inst.core) : Separates info ps is → Separates info ps js := by
  induction ps generalizing is js with
  | nil => exact homogeneous_core info h
  | cons p ps ih =>
    rintro ⟨xs, i, ys, rfl, hp, hphi, hom, hrest⟩
    rw [List.map_append, List.map_cons] at h
    obtain ⟨xs', r, rfl, hx, hr⟩ := List.map_eq_append_iff.mp h.symm
    obtain ⟨i', ys', rfl, hi, hy⟩ := List.map_eq_cons_iff.mp hr
    refine ⟨xs', i', ys', rfl, ?_, ?_, ?_, fun br hbr => ?_⟩
    · rw [← hp, ← core_id i, ← hi, core_id]
    · rw [← hphi, ← core_isPHI i, ← hi, core_isPHI]
    · exact homogeneous_core info (by simp [hi, hy]) hom
    · exact ih (by simp [hx]) (hrest br hbr)

/-- The points of a scan separate, on top of points `ps` that separate whatever
the scan has nothing left to find in. `Q` is what the cuts keep of the scanned list. -/
theorem separates_changePoints (m : Mode) (ps : List InstId) (pre : List Inst)
    (Q : List Inst → Prop)
    (hQ : ∀ xs i ys br, Q (xs ++ i :: ys) → (xs = [] → m ≠ getMode info i) → Q (xs ++ [br]))
    (base : ∀ is, Q is → (∀ i ∈ is, i.isPHI = false) → changePoints info m is = [] →
      Separates info ps (pre ++ is))
    (is : List Inst) (hq : Q is) (hphi : ∀ i ∈ is, i.isPHI = false) :
    Separates info (((changePoints info m is).map Prod.fst).reverse ++ ps) (pre ++ is) := by
  generalize hc : changePoints info m is = cs
  induction cs using List.reverseRecOn generalizing is with
  | nil => exact base is hq hphi hc
  | append_singleton q p ih =>
    obtain ⟨xs, i, ys, rfl, rfl, hbr, hne, h1, h2⟩ := changePoints_last info hc
    simp only [List.map_append, List.map_cons, List.map_nil, List.reverse_append,
      List.reverse_cons, List.reverse_nil, List.nil_append, List.cons_append]
    refine ⟨pre ++ xs, i, ys, by simp, rfl, hphi i (by simp), ?_, ?_⟩
    · refine homogeneous_of_mode info (getMode info i) fun j hj hjb => ?_
      rcases List.mem_cons.mp hj with rfl | hj
      · rfl
      · exact changePoints_eq_nil info h2 j hj hjb
    · intro br hb
      rw [List.append_assoc]
      have hnophi : br.isPHI = false := by
        simp only [Inst.isUncondBr, Bool.and_eq_true, decide_eq_true_eq] at hb
        simp [Inst.isPHI, hb.1]
      have hstep : changePoints info m (xs ++ [br]) = q := by
        simp [changePoints_append, h1, changePoints, hb]
      refine ih (xs ++ [br]) (hQ xs i ys br hq hne) ?_ hstep
      intro j hj
      rcases List.mem_append.mp hj with hj | hj
      · exact hphi j (by simp [hj])
      · rw [List.mem_singleton.mp hj]
        exact hnophi

/-- The points `findInBlock` pushes for a block. -/
def blockPoints (b : Block) : List ModeChangePoint :=
  let firstI := if phisAgree info b then b.insts else b.insts.drop (firstInsertionPt b)
  (if phisAgree info b then [] else
    (firstI.head?.map fun i => (i.id, invertMode (headMode info firstI))).toList) ++
  changePoints info (headMode info firstI) firstI

/-- PHIs and branches alone are homogeneous whatever their modes. -/
theorem homogeneous_phis {is : List Inst} (h : ∀ i ∈ is, i.isPHI ∨ i.isUncondBr) :
    Homogeneous info is := by
  have hb : ∀ i ∈ is, ¬ Inst.isBody i := by
    intro i hi
    rcases h i hi with h | h <;> simp [Inst.isBody, h]
  exact ⟨fun i hi _ _ h1 => absurd h1 (hb i hi), fun i hi _ _ h1 => absurd h1 (hb i hi)⟩

theorem takeWhile_phis {ps rest : List Inst} (hp : ∀ p ∈ ps, p.isPHI = true)
    (hr : ∀ i ∈ rest, i.isPHI = false) : (ps ++ rest).takeWhile Inst.isPHI = ps := by
  rw [List.takeWhile_append_of_pos hp]
  cases rest with
  | nil => simp
  | cons i is => simp [hr i (List.mem_cons_self ..)]

/-- The points of a block, taken back to front, separate it. -/
theorem separates_blockPoints {b : Block} (hb : PhisFirst b.insts)
    (hpad : ∀ i ∈ b.insts, i.op.isEHPad = false) :
    Separates info ((blockPoints info b).map Prod.fst).reverse b.insts := by
  obtain ⟨ps, rest, hi, hps, hrest⟩ := hb
  have hphis : b.phis = ps := by rw [Block.phis, hi, takeWhile_phis hps hrest]
  by_cases hag : phisAgree info b = true
  · -- uniform PHIs: the scan starts at the first instruction and skips them
    have hmode : ∀ p ∈ ps, getMode info p = headMode info b.insts := by
      intro p hp
      have := List.all_eq_true.mp hag p (hphis ▸ hp)
      simpa using this
    simp only [blockPoints, hag, if_true, List.nil_append]
    rw [hi] at hmode ⊢
    have hskip : changePoints info (headMode info (ps ++ rest)) (ps ++ rest) =
        changePoints info (headMode info (ps ++ rest)) rest := by
      rw [changePoints_append, changePoints_of_mode info hmode]
      rfl
    rw [hskip]
    have := separates_changePoints info (headMode info (ps ++ rest)) [] ps
      (fun _ => True) (fun _ _ _ _ _ _ => trivial) ?_ rest trivial hrest
    · simpa using this
    · intro is _ _ hnil
      refine homogeneous_of_mode info (headMode info (ps ++ rest)) fun i hmem hbr => ?_
      rcases List.mem_append.mp hmem with h | h
      · exact hmode i h
      · exact changePoints_eq_nil info hnil i h hbr
  · have hk : firstInsertionPt b = ps.length := by
      simp only [firstInsertionPt, Block.firstNonPHI, hphis]
      split
      · next i hget =>
        rw [hpad i (List.mem_of_getElem? hget)]
        simp
      · rfl
    have hdrop : b.insts.drop (firstInsertionPt b) = rest := by rw [hk, hi]; simp
    simp only [blockPoints, hag, Bool.false_eq_true, if_false, hdrop]
    rw [hi]
    cases rest with
    | nil =>
      simp only [List.append_nil]
      exact homogeneous_phis info fun i h => .inl (hps i h)
    | cons i₀ rs =>
      -- mixed PHIs: a first cut behind them, whatever follows starts at `i₀`
      simp only [List.head?_cons, Option.map_some, Option.toList_some, List.map_append,
        List.map_cons, List.map_nil, List.reverse_append, List.reverse_cons, List.reverse_nil,
        List.nil_append, headMode]
      refine separates_changePoints info _ _ _ (fun is => ∃ r, is = i₀ :: r) ?_ ?_ (i₀ :: rs)
        ⟨rs, rfl⟩ hrest
      · rintro xs i ys br ⟨r, hr⟩ hne
        cases xs with
        | nil =>
          obtain ⟨rfl, -⟩ := List.cons.inj hr
          exact absurd rfl (hne rfl)
        | cons x xs =>
          obtain ⟨rfl, -⟩ := List.cons.inj hr
          exact ⟨xs ++ [br], rfl⟩
      · rintro is ⟨r, rfl⟩ hnp hnil
        refine ⟨ps, i₀, r, rfl, rfl, hnp i₀ (List.mem_cons_self ..),
          homogeneous_of_mode info _ (changePoints_eq_nil info hnil), fun br hbr => ?_⟩
        refine homogeneous_phis info fun i h => ?_
        rcases List.mem_append.mp h with h | h
        · exact .inl (hps i h)
        · exact .inr (List.mem_singleton.mp h ▸ hbr)

end Lists

end Atrox
