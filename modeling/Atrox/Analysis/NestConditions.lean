import Atrox.Analysis.LoopBounds

/-!
# The conditions of a nest

Which instructions `isValueUsedOnlyInLoopNestConditions` takes for exit conditions, and on which
nests it is defined.
-/

namespace Atrox
open IR Lib LoopInfo

/- A branch without a condition has one successor. -/
def SingleTargets (M : Module) : Prop := ∀ i ∈ M.insts, i.op = .br → i.operands = [] → i.succs.length = 1

/- Only the last sub-loop has sub-loops of its own. -/
def WalkDefined (LI : LoopInfo) (l : LoopId) : Prop := ∀ e ∈ (LI.getSubLoops l).dropLast, LI.getSubLoops e = []

instance (LI : LoopInfo) (l : LoopId) : Decidable (WalkDefined LI l) := by
  unfold WalkDefined
  infer_instance

/- Two levels of sub-loops and the loop. -/
def nestLoops (LI : LoopInfo) (l : LoopId) : List LoopId :=
  LI.getSubLoops l ++ (LI.getSubLoops l).flatMap LI.getSubLoops ++ [l]

/- The instruction decides the branch of the one block through which the loop is left. -/
def IsExitCondition (LI : LoopInfo) (M : Module) (e : LoopId) (i : InstId) : Prop :=
  ∃ t, getBackedgeCondition LI M false e = some (some (.inst i t))

/- The value is an operand of some exit condition, and in the blocks nothing else uses it. -/
def OnlyInConditions (LI : LoopInfo) (M : Module) (l : LoopId) (interesting : SetVector BlockId) (v : Value) : Prop :=
  (∃ e ∈ nestLoops LI l, ∃ i, IsExitCondition LI M e i ∧ (M.inst? i).any (fun be => v ∈ be.operands) = true) ∧
  ∀ u ∈ M.users v, M.definedIn interesting.elems u.id = true → ∃ e ∈ nestLoops LI l, IsExitCondition LI M e u.id

section Walk
variable {LI : LoopInfo}

theorem appendSubLoops_eq (freed : Bool) (loops es : List LoopId) :
    appendSubLoops LI freed loops es =
      if (freed = true → es = []) ∧ ∀ e ∈ es.dropLast, LI.getSubLoops e = [] then
        some (loops ++ es.flatMap LI.getSubLoops) else none := by
  induction es generalizing freed loops with
  | nil => simp [appendSubLoops]
  | cons e es ih =>
    rw [appendSubLoops]
    cases freed with
    | true => simp
    | false =>
      rw [if_neg Bool.false_ne_true, ih, List.flatMap_cons, List.append_assoc]
      refine if_congr ?_ rfl rfl
      cases es with
      | nil => simp
      | cons e' es => simp

theorem conditionLoops_eq (l : LoopId) :
    conditionLoops LI l = if WalkDefined LI l then some (nestLoops LI l) else none := by
  rw [conditionLoops, appendSubLoops_eq]
  by_cases h : WalkDefined LI l
  · rw [if_pos h, if_pos ⟨fun hf => absurd hf Bool.false_ne_true, h⟩]
    rfl
  · rw [if_neg h, if_neg fun hc => h hc.2]
    rfl

theorem nestLoops_lt {l : LoopId} (hl : l < LI.loops.length) {e : LoopId} (he : e ∈ nestLoops LI l) :
    e < LI.loops.length := by
  rcases List.mem_append.mp he with he | he
  · rcases List.mem_append.mp he with he | he
    · exact parentOf_lt (mem_getSubLoops.mp he)
    · obtain ⟨s, -, hes⟩ := List.mem_flatMap.mp he
      exact parentOf_lt (mem_getSubLoops.mp hes)
  · exact List.mem_singleton.mp he ▸ hl

end Walk

section Conditions
variable {LI : LoopInfo} {M : Module}

/- The assertions change no answer. -/
theorem getBackedgeCondition_release {asserts : Bool} {e : LoopId} {c : Option Value}
    (h : getBackedgeCondition LI M asserts e = some c) : getBackedgeCondition LI M false e = some c := by
  unfold getBackedgeCondition at h ⊢
  split at h
  · split at h
    · cases h
    · exact h
  · exact h

/- The block through which a loop is left has an edge back into it, so it ends in no plain jump. -/
theorem exiting_terminator (hin : LI.StaysInside M) (hbr : SingleTargets M) {l : LoopId} (hl : l < LI.loops.length)
    {b : BlockId} (hb : LI.getExitingBlock M l = some b) :
    ∃ bi, (M.block? b).bind Block.terminator? = some bi ∧ (bi.op = .br → bi.operands ≠ []) := by
  have hone : LI.getExitingBlocks M l = [b] := by
    unfold getExitingBlock at hb
    split at hb
    · next b' hb' =>
      cases hb
      exact hb'
    · cases hb
  have hmem : b ∈ LI.getExitingBlocks M l := hone ▸ List.mem_cons_self ..
  obtain ⟨hbl, hany⟩ := List.mem_filter.mp hmem
  obtain ⟨out, hout, hnot⟩ := List.any_eq_true.mp hany
  obtain ⟨back, hback, hinside⟩ := hin l hl b hbl
  rw [decide_eq_true_eq] at hnot
  unfold Module.succsOf at hout hback
  cases hx : M.block? b with
  | none =>
    rw [hx] at hout
    exact absurd hout List.not_mem_nil
  | some x =>
    rw [hx, Option.map_some, Option.getD_some, Block.succs] at hout hback
    cases ht : x.terminator? with
    | none =>
      rw [ht] at hout
      exact absurd hout List.not_mem_nil
    | some bi =>
      rw [ht, Option.map_some, Option.getD_some] at hout hback
      refine ⟨bi, ht, fun hop hnil => ?_⟩
      have hbi : bi ∈ M.insts := List.mem_flatMap.mpr
        ⟨x, List.mem_of_find?_eq_some hx, List.mem_of_getLast? ht⟩
      obtain ⟨s, hs⟩ := List.length_eq_one_iff.mp (hbr bi hbi hop hnil)
      rw [hs, List.mem_singleton] at hout hback
      exact hnot (hout.trans hback.symm ▸ hinside)

/- The condition of a loop that is left through one block is there: of the two assertions the second
cannot fail. -/
theorem getBackedgeCondition_isSome (hin : LI.StaysInside M) (hbr : SingleTargets M) {l : LoopId}
    (hl : l < LI.loops.length) (asserts : Bool) :
    (getBackedgeCondition LI M asserts l).isSome ↔ (asserts = true → (LI.getExitingBlock M l).isSome) := by
  unfold getBackedgeCondition
  cases hb : LI.getExitingBlock M l with
  | none => cases asserts <;> simp
  | some b =>
    obtain ⟨bi, hbi, hcond⟩ := exiting_terminator hin hbr hl hb
    dsimp only
    rw [hbi]
    dsimp only
    split
    · next hop =>
      obtain ⟨c, cs, hcs⟩ := List.exists_cons_of_ne_nil (hcond hop)
      simp [hcs]
    · simp

theorem usedInConditions_isSome (asserts : Bool) (v : Value) (ls : List LoopId) :
    (ls.foldlM (usedInCondition LI M asserts v) ∅).isSome ↔ ∀ e ∈ ls, (getBackedgeCondition LI M asserts e).isSome := by
  refine foldlM_isSome_iff (P := fun _ => True) ls ?_ (fun _ _ _ _ _ _ => trivial) trivial
  intro e s _ _
  rw [usedInCondition, Option.isSome_map]

/- What one loop adds. -/
theorem mem_usedInCondition {asserts : Bool} {v : Value} {e : LoopId} {s s' : SetVector InstId}
    (h : usedInCondition LI M asserts v s e = some s') (i : InstId) :
    i ∈ s' ↔ i ∈ s ∨ IsExitCondition LI M e i ∧ (M.inst? i).any (fun be => v ∈ be.operands) = true := by
  obtain ⟨c, hback, rfl⟩ := Option.map_eq_some_iff.mp h
  have hc := getBackedgeCondition_release hback
  have hexit : IsExitCondition LI M e i ↔ ∃ t, c = some (.inst i t) := by
    constructor
    · intro ⟨t, ht⟩
      exact ⟨t, Option.some.inj (hc.symm.trans ht)⟩
    · rintro ⟨t, rfl⟩
      exact ⟨t, hc⟩
  clear hback hc h
  rw [hexit]
  split
  · next j t =>
    have hij : (∃ t', some (Value.inst j t) = some (.inst i t')) ↔ i = j := by
      constructor
      · intro ⟨t', ht'⟩
        cases ht'
        rfl
      · rintro rfl
        exact ⟨t, rfl⟩
    rw [hij]
    split
    · next hany =>
      rw [SetVector.mem_insert]
      refine or_congr Iff.rfl ⟨?_, And.left⟩
      rintro rfl
      exact ⟨rfl, hany⟩
    · next hany =>
      refine (or_iff_left ?_).symm
      rintro ⟨rfl, hi⟩
      exact hany hi
  · next hother =>
    refine (or_iff_left ?_).symm
    rintro ⟨⟨t, rfl⟩, -⟩
    exact hother i t rfl

theorem mem_usedInConditions {asserts : Bool} {v : Value} {ls : List LoopId} {cond : SetVector InstId}
    (h : ls.foldlM (usedInCondition LI M asserts v) ∅ = some cond) (i : InstId) :
    i ∈ cond ↔ ∃ e ∈ ls, IsExitCondition LI M e i ∧ (M.inst? i).any (fun be => v ∈ be.operands) = true := by
  refine foldlM_run (P := fun pre cond => i ∈ cond ↔
    ∃ e ∈ pre, IsExitCondition LI M e i ∧ (M.inst? i).any (fun be => v ∈ be.operands) = true) ls ?_ ?_ h
  · intro pre e post s s' _ hs hstep
    rw [mem_usedInCondition hstep i, hs]
    simp only [List.mem_append, List.mem_singleton, or_and_right, exists_or, exists_eq_left]
  · exact ⟨fun hi => absurd hi (SetVector.notMem_empty i), fun ⟨e, he, _⟩ => absurd he List.not_mem_nil⟩

theorem usedOnly_isSome (asserts : Bool) (v : Value) (l : LoopId) (interesting : SetVector BlockId) :
    (isValueUsedOnlyInLoopNestConditions LI M asserts v l interesting).isSome ↔
      WalkDefined LI l ∧ ∀ e ∈ nestLoops LI l, (getBackedgeCondition LI M asserts e).isSome := by
  rw [isValueUsedOnlyInLoopNestConditions, Option.isSome_map, isValueUsedInLoopNestConditions, conditionLoops_eq]
  by_cases h : WalkDefined LI l
  · rw [if_pos h, Option.bind_some, usedInConditions_isSome, and_iff_right h]
  · rw [if_neg h]
    exact ⟨fun hs => absurd hs Bool.false_ne_true, fun hs => absurd hs.1 h⟩

/- The answer, when there is one. -/
theorem usedOnly_iff (hM : M.Ids) {asserts : Bool} {v : Value} {l : LoopId} {interesting : SetVector BlockId} {b : Bool}
    (h : isValueUsedOnlyInLoopNestConditions LI M asserts v l interesting = some b) :
    b = true ↔ OnlyInConditions LI M l interesting v := by
  obtain ⟨cond, hcond, rfl⟩ := Option.map_eq_some_iff.mp h
  obtain ⟨loops, hloops, hrun⟩ := Option.bind_eq_some_iff.mp hcond
  rw [conditionLoops_eq] at hloops
  split at hloops
  case isFalse => cases hloops
  cases hloops
  have hmem := mem_usedInConditions hrun
  rw [Bool.and_eq_true, decide_eq_true_eq, List.all_eq_true]
  refine and_congr ?_ (forall₂_congr fun u hu => ?_)
  · constructor
    · intro hne
      obtain ⟨i, hi⟩ := List.exists_mem_of_ne_nil _ hne
      obtain ⟨e, he, hexit, hany⟩ := (hmem i).mp hi
      exact ⟨e, he, i, hexit, hany⟩
    · intro ⟨e, he, i, hexit, hany⟩
      exact List.ne_nil_of_mem ((hmem i).mpr ⟨e, he, hexit, hany⟩)
  · obtain ⟨huM, huv⟩ := List.mem_filter.mp hu
    have hany : (M.inst? u.id).any (fun be => v ∈ be.operands) = true := by
      rw [inst?_of_mem hM huM]
      exact huv
    rw [Bool.or_eq_true, Bool.not_eq_true', decide_eq_true_eq, hmem u.id, ← Bool.not_eq_true, ← imp_iff_not_or]
    simp only [hany, and_true]

/- The assertions change no answer about an input. -/
theorem usedOnly_release (hM : M.Ids) {asserts b : Bool} {v : Value} {l : LoopId} {interesting : SetVector BlockId}
    (h : isValueUsedOnlyInLoopNestConditions LI M asserts v l interesting = some b) :
    isValueUsedOnlyInLoopNestConditions LI M false v l interesting = some b := by
  obtain ⟨hwalk, hexits⟩ := (usedOnly_isSome asserts v l interesting).mp (Option.isSome_iff_exists.mpr ⟨b, h⟩)
  have hsome := (usedOnly_isSome (M := M) false v l interesting).mpr ⟨hwalk, fun e he => by
    obtain ⟨c, hc⟩ := Option.isSome_iff_exists.mp (hexits e he)
    rw [getBackedgeCondition_release hc]
    rfl⟩
  obtain ⟨b', hb'⟩ := Option.isSome_iff_exists.mp hsome
  rw [hb', Bool.eq_iff_iff.mpr ((usedOnly_iff hM hb').trans (usedOnly_iff hM h).symm)]

/- Without assertions the answer is there whenever the walk is. -/
theorem usedOnly_release_iff (hM : M.Ids) (hin : LI.StaysInside M) (hbr : SingleTargets M) {l : LoopId}
    (hl : l < LI.loops.length) (v : Value) (interesting : SetVector BlockId) :
    isValueUsedOnlyInLoopNestConditions LI M false v l interesting = some true ↔
      WalkDefined LI l ∧ OnlyInConditions LI M l interesting v := by
  constructor
  · intro h
    have hsome := Option.isSome_iff_exists.mpr ⟨true, h⟩
    exact ⟨((usedOnly_isSome false v l interesting).mp hsome).1, (usedOnly_iff hM h).mp rfl⟩
  · intro ⟨hwalk, honly⟩
    have hsome := (usedOnly_isSome false v l interesting).mpr ⟨hwalk, fun e he =>
      (getBackedgeCondition_isSome hin hbr (nestLoops_lt hl he) false).mpr fun hf => absurd hf Bool.false_ne_true⟩
    obtain ⟨b, hb⟩ := Option.isSome_iff_exists.mp hsome
    rw [hb, (usedOnly_iff hM hb).mpr honly]

end Conditions

end Atrox
