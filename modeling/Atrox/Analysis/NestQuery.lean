import Atrox.Analysis.NestConditions

/-!
# Conditions of the whole nest

`isValueUsedInLoopNestConditions` extends the list of sub-loops that it walks, so it sees two
levels below its loop. When its answers, and those of `isValueUsedOnlyInLoopNestConditions`, are
the ones for the whole nest.
-/

namespace Atrox
open IR Lib LoopInfo

section Query
variable (LI : LoopInfo) (M : Module)

/- The loop over the loops when no set is given: it ends at the first condition that has the value. -/
def findCondition (asserts : Bool) (v : Value) : List LoopId → Option Bool
  | [] => some false
  | e :: loops => (getBackedgeCondition LI M asserts e).bind fun cond =>
    match cond with
    | some (.inst i _) =>
      if (M.inst? i).any fun be => v ∈ be.operands then some true else findCondition asserts v loops
    | _ => findCondition asserts v loops

/- `isValueUsedInLoopNestConditions` with a null pointer for `Conditions`. -/
def isValueUsedInLoopNestConditionsNull (asserts : Bool) (v : Value) (l : LoopId) : Option Bool :=
  (conditionLoops LI l).bind (findCondition LI M asserts v)

/- The loop is `l` or nested in it, at any depth. -/
def InNest (l e : LoopId) : Prop := e < LI.loops.length ∧ l ∈ LI.enclosing e

/- The value is an operand of the loop's exit condition. -/
def UsedByCondition (v : Value) (e : LoopId) : Prop :=
  ∃ i, IsExitCondition LI M e i ∧ (M.inst? i).any (fun be => v ∈ be.operands) = true

/- Each loop of the nest has one exiting block, which ends in a conditional branch. -/
def ConditionalExits (l : LoopId) : Prop :=
  ∀ e, InNest LI l e → ∃ b bi, LI.getExitingBlock M e = some b ∧ (M.block? b).bind Block.terminator? = some bi ∧
    bi.op = .br ∧ bi.operands ≠ []

/- Both queries answer for the whole nest. -/
structure QueriesCoverNest (asserts : Bool) (v : Value) (l : LoopId) (interesting : SetVector BlockId) : Prop where
  used : ∃ b, isValueUsedInLoopNestConditionsNull LI M asserts v l = some b ∧
    (b = true ↔ ∃ e, InNest LI l e ∧ UsedByCondition LI M v e)
  only : ∃ b, isValueUsedOnlyInLoopNestConditions LI M asserts v l interesting = some b ∧
    (b = true ↔ (∃ e, InNest LI l e ∧ UsedByCondition LI M v e) ∧
      ∀ u ∈ M.users v, M.definedIn interesting.elems u.id = true → ∃ e, InNest LI l e ∧ IsExitCondition LI M e u.id)

/- What lies deeper than two levels makes no difference: a value that a condition there uses is used by one
further out, and a user that is an exit condition there only comes with one that is none of the nest. -/
structure DeepConditionsIdle (v : Value) (l : LoopId) (interesting : SetVector BlockId) : Prop where
  used : ∀ e, InNest LI l e → e ∉ nestLoops LI l → UsedByCondition LI M v e →
    ∃ e' ∈ nestLoops LI l, UsedByCondition LI M v e'
  users : ∀ u ∈ M.users v, M.definedIn interesting.elems u.id = true →
    (∃ e, InNest LI l e ∧ e ∉ nestLoops LI l ∧ IsExitCondition LI M e u.id) →
    (∃ e ∈ nestLoops LI l, IsExitCondition LI M e u.id) ∨
      ∃ u' ∈ M.users v, M.definedIn interesting.elems u'.id = true ∧
        ∀ e, InNest LI l e → ¬ IsExitCondition LI M e u'.id

end Query

section Answers
variable {LI : LoopInfo} {M : Module}

theorem nestLoops_inNest (hLI : LI.Natural M) {l : LoopId} (hl : l < LI.loops.length) {e : LoopId}
    (he : e ∈ nestLoops LI l) :
    InNest LI l e := by
  refine ⟨nestLoops_lt hl he, ?_⟩
  rcases List.mem_append.mp he with he | he
  · rcases List.mem_append.mp he with he | he
    · exact parent_enclosing hLI (mem_getSubLoops.mp he)
    · obtain ⟨s, hs, hes⟩ := List.mem_flatMap.mp he
      rw [enclosing_of_parent hLI (mem_getSubLoops.mp hes)]
      exact List.mem_cons_of_mem e (parent_enclosing hLI (mem_getSubLoops.mp hs))
  · obtain rfl := List.mem_singleton.mp he
    exact self_enclosing hLI hl

theorem ConditionalExits.isSome {l : LoopId} (h : ConditionalExits LI M l) {e : LoopId} (he : InNest LI l e)
    (asserts : Bool) :
    (getBackedgeCondition LI M asserts e).isSome = true := by
  obtain ⟨b, bi, hb, hbi, hop, hops⟩ := h e he
  obtain ⟨c, cs, hcs⟩ := List.exists_cons_of_ne_nil hops
  unfold getBackedgeCondition
  rw [hb]
  dsimp only
  rw [hbi]
  dsimp only
  rw [if_pos hop, hcs]
  rfl

/- One condition has the value or not. -/
theorem usedByCondition_iff {asserts : Bool} {v : Value} {e : LoopId} {c : Option Value}
    (h : getBackedgeCondition LI M asserts e = some c) :
    UsedByCondition LI M v e ↔ ∃ i t, c = some (.inst i t) ∧ (M.inst? i).any (fun be => v ∈ be.operands) = true := by
  have hc := getBackedgeCondition_release h
  constructor
  · rintro ⟨i, ⟨t, ht⟩, hany⟩
    exact ⟨i, t, Option.some.inj (hc.symm.trans ht), hany⟩
  · rintro ⟨i, t, rfl, hany⟩
    exact ⟨i, ⟨t, hc⟩, hany⟩

/- The first condition found ends the walk, so the answer is whether there is one. -/
theorem findCondition_iff {asserts : Bool} {v : Value} {ls : List LoopId}
    (h : ∀ e ∈ ls, (getBackedgeCondition LI M asserts e).isSome = true) :
    ∃ b, findCondition LI M asserts v ls = some b ∧ (b = true ↔ ∃ e ∈ ls, UsedByCondition LI M v e) := by
  induction ls with
  | nil => exact ⟨false, rfl, fun hb => absurd hb Bool.false_ne_true, fun ⟨e, he, _⟩ => absurd he List.not_mem_nil⟩
  | cons e ls ih =>
    obtain ⟨b, hb, hiff⟩ := ih fun e' he' => h e' (List.mem_cons_of_mem e he')
    obtain ⟨c, hc⟩ := Option.isSome_iff_exists.mp (h e (List.mem_cons_self ..))
    have huse := usedByCondition_iff (v := v) hc
    by_cases hfound : UsedByCondition LI M v e
    · obtain ⟨i, t, rfl, hany⟩ := huse.mp hfound
      refine ⟨true, ?_, fun _ => ⟨e, List.mem_cons_self .., hfound⟩, fun _ => rfl⟩
      rw [findCondition, hc, Option.bind_some]
      exact if_pos hany
    · refine ⟨b, ?_, hiff.trans ?_⟩
      · rw [findCondition, hc, Option.bind_some]
        split
        · next i t =>
          rw [if_neg fun hany => hfound (huse.mpr ⟨i, t, rfl, hany⟩)]
          exact hb
        · exact hb
      · simp only [List.mem_cons, exists_eq_or_imp, hfound, false_or]

/- A user of the value that is an exit condition is one that has the value. -/
theorem usedByCondition_of_user (hM : M.Ids) {v : Value} {u : Inst} (hu : u ∈ M.users v) {e : LoopId}
    (he : IsExitCondition LI M e u.id) : UsedByCondition LI M v e := by
  obtain ⟨huM, huv⟩ := List.mem_filter.mp hu
  refine ⟨u.id, he, ?_⟩
  rw [inst?_of_mem hM huM]
  exact huv

end Answers

section Main
variable {LI : LoopInfo} {M : Module} {asserts : Bool} {v : Value} {l : LoopId} {interesting : SetVector BlockId}

/- Where the walk is defined both queries answer, and they answer for the levels it has seen. -/
theorem queries_answer (asserts : Bool) (v : Value) (interesting : SetVector BlockId) (hLI : LI.Natural M)
    (hM : M.Ids)
    (hl : l < LI.loops.length) (hexits : ConditionalExits LI M l) (hwalk : WalkDefined LI l) :
    (∃ b, isValueUsedInLoopNestConditionsNull LI M asserts v l = some b ∧
      (b = true ↔ ∃ e ∈ nestLoops LI l, UsedByCondition LI M v e)) ∧
    ∃ b, isValueUsedOnlyInLoopNestConditions LI M asserts v l interesting = some b ∧
      (b = true ↔ OnlyInConditions LI M l interesting v) := by
  have hsome : ∀ e ∈ nestLoops LI l, (getBackedgeCondition LI M asserts e).isSome = true := fun e he =>
    hexits.isSome (nestLoops_inNest hLI hl he) asserts
  constructor
  · rw [isValueUsedInLoopNestConditionsNull, conditionLoops_eq, if_pos hwalk, Option.bind_some]
    exact findCondition_iff hsome
  · obtain ⟨b, hb⟩ := Option.isSome_iff_exists.mp ((usedOnly_isSome asserts v l interesting).mpr ⟨hwalk, hsome⟩)
    exact ⟨b, hb, usedOnly_iff hM hb⟩

/- The queries answer for the nest exactly if the walk over the loops is defined and what it does not
reach makes no difference. -/
theorem queriesCoverNest_iff (hLI : LI.Natural M) (hM : M.Ids) (hl : l < LI.loops.length)
    (hexits : ConditionalExits LI M l) :
    QueriesCoverNest LI M asserts v l interesting ↔ WalkDefined LI l ∧ DeepConditionsIdle LI M v l interesting := by
  have hsub : ∀ e ∈ nestLoops LI l, InNest LI l e := fun e he => nestLoops_inNest hLI hl he
  constructor
  · rintro ⟨⟨b, hb, hiff⟩, b', hb', hiff'⟩
    have hwalk : WalkDefined LI l := by
      by_contra hno
      rw [isValueUsedInLoopNestConditionsNull, conditionLoops_eq, if_neg hno] at hb
      exact nomatch hb
    obtain ⟨⟨c, hc, hseen⟩, c', hc', hseen'⟩ := queries_answer asserts v interesting hLI hM hl hexits hwalk
    obtain rfl := Option.some.inj (hb.symm.trans hc)
    obtain rfl := Option.some.inj (hb'.symm.trans hc')
    refine ⟨hwalk, fun e he _ huse => hseen.mp (hiff.mpr ⟨e, he, huse⟩), fun u hu hin ⟨e, he, _, hexit⟩ => ?_⟩
    by_cases hall : ∀ u' ∈ M.users v, M.definedIn interesting.elems u'.id = true →
        ∃ e, InNest LI l e ∧ IsExitCondition LI M e u'.id
    · have honly := hseen'.mp (hiff'.mpr ⟨⟨e, he, usedByCondition_of_user hM hu hexit⟩, hall⟩)
      exact .inl (honly.2 u hu hin)
    · simp only [not_forall, not_exists, not_and] at hall
      obtain ⟨u', hu', hin', hnone⟩ := hall
      exact .inr ⟨u', hu', hin', hnone⟩
  · rintro ⟨hwalk, hidle⟩
    obtain ⟨⟨b, hb, hseen⟩, b', hb', hseen'⟩ := queries_answer asserts v interesting hLI hM hl hexits hwalk
    -- a condition of the nest with the value means one on the levels seen
    have hused : (∃ e ∈ nestLoops LI l, UsedByCondition LI M v e) ↔
        ∃ e, InNest LI l e ∧ UsedByCondition LI M v e := by
      constructor
      · exact fun ⟨e, he, huse⟩ => ⟨e, hsub e he, huse⟩
      · intro ⟨e, he, huse⟩
        by_cases hmem : e ∈ nestLoops LI l
        · exact ⟨e, hmem, huse⟩
        · exact hidle.used e he hmem huse
    refine ⟨⟨b, hb, hseen.trans hused⟩, b', hb', hseen'.trans
      (and_congr hused ⟨fun hall u hu hin => ?_, fun hall u hu hin => ?_⟩)⟩
    · obtain ⟨e, he, hexit⟩ := hall u hu hin
      exact ⟨e, hsub e he, hexit⟩
    · obtain ⟨e, he, hexit⟩ := hall u hu hin
      by_cases hmem : e ∈ nestLoops LI l
      · exact ⟨e, hmem, hexit⟩
      · rcases hidle.users u hu hin ⟨e, he, hmem, hexit⟩ with hout | ⟨u', hu', hin', hnone⟩
        · exact hout
        · obtain ⟨e', he', hexit'⟩ := hall u' hu' hin'
          exact absurd hexit' (hnone e' he')

/- Four loops in each other; the bound of the innermost is the argument `n`, that of the others is 8. -/
def deepNest : Module where
  funcs := [{ id := 9, params := [⟨"n", .int 32⟩], isVarArg := false, blocks :=
    [⟨0, [Inst.uncondBr 30 1], false⟩,
     ⟨1, [⟨10, .phi, .int 32, [.const (.int 32 0), .inst 21 (.int 32)], [0, 7], []⟩, Inst.uncondBr 31 2], false⟩,
     ⟨2, [⟨11, .phi, .int 32, [.const (.int 32 0), .inst 22 (.int 32)], [1, 6], []⟩, Inst.uncondBr 32 3], false⟩,
     ⟨3, [⟨12, .phi, .int 32, [.const (.int 32 0), .inst 23 (.int 32)], [2, 5], []⟩, Inst.uncondBr 33 4], false⟩,
     ⟨4, [⟨13, .phi, .int 32, [.const (.int 32 0), .inst 24 (.int 32)], [3, 4], []⟩,
          ⟨24, .add, .int 32, [.inst 13 (.int 32), .const (.int 32 1)], [], []⟩,
          ⟨28, .other 0, .int 1, [.inst 24 (.int 32), .arg 9 0 (.int 32)], [], []⟩,
          ⟨34, .br, .void, [.inst 28 (.int 1)], [], [4, 5]⟩], false⟩,
     ⟨5, [⟨23, .add, .int 32, [.inst 12 (.int 32), .const (.int 32 1)], [], []⟩,
          ⟨27, .other 0, .int 1, [.inst 23 (.int 32), .const (.int 32 8)], [], []⟩,
          ⟨35, .br, .void, [.inst 27 (.int 1)], [], [3, 6]⟩], false⟩,
     ⟨6, [⟨22, .add, .int 32, [.inst 11 (.int 32), .const (.int 32 1)], [], []⟩,
          ⟨26, .other 0, .int 1, [.inst 22 (.int 32), .const (.int 32 8)], [], []⟩,
          ⟨36, .br, .void, [.inst 26 (.int 1)], [], [2, 7]⟩], false⟩,
     ⟨7, [⟨21, .add, .int 32, [.inst 10 (.int 32), .const (.int 32 1)], [], []⟩,
          ⟨25, .other 0, .int 1, [.inst 21 (.int 32), .const (.int 32 8)], [], []⟩,
          ⟨37, .br, .void, [.inst 25 (.int 1)], [], [1, 8]⟩], false⟩,
     ⟨8, [⟨38, .ret, .void, [], [], []⟩], false⟩] }]
  nextId := 40
  valueName := fun _ => ""
  initUsesBlockAddress := fun _ => false

def deepLoops : LoopInfo where
  loops := [⟨1, [1, 2, 3, 4, 5, 6, 7], none⟩, ⟨2, [2, 3, 4, 5, 6], some 0⟩, ⟨3, [3, 4, 5], some 1⟩, ⟨4, [4], some 2⟩]
  bbMap := fun b => [(1, 0), (7, 0), (2, 1), (6, 1), (3, 2), (5, 2), (4, 3)].lookup b

theorem deepLoops_natural : deepLoops.Natural deepNest :=
  LoopInfo.natural_of_lookup (by decide) (by decide) (by decide) (by decide) (by decide) (by decide)

theorem deepNest_ids : deepNest.Ids := ⟨by decide, by decide, by decide, by decide⟩

theorem deepNest_conditionalExits (l : LoopId) : ConditionalExits deepLoops deepNest l := by
  have hall : ∀ e < 4, ((deepLoops.getExitingBlock deepNest e).any fun b =>
    ((deepNest.block? b).bind Block.terminator?).any
      fun bi => bi.op = .br ∧ bi.operands ≠ []) = true := by decide
  rintro e ⟨he, -⟩
  obtain ⟨b, hb, hany⟩ := (Option.any_eq_true _ _).mp (hall e he)
  obtain ⟨bi, hbi, hcond⟩ := (Option.any_eq_true _ _).mp hany
  obtain ⟨hop, hops⟩ := of_decide_eq_true hcond
  exact ⟨b, bi, hb, hbi, hop, hops⟩

/- From the second loop on there are three levels. -/
theorem queriesCoverNest_iff_deepNest :
    QueriesCoverNest deepLoops deepNest true (.arg 9 0 (.int 32)) 1 (.ofList [3, 5]) ↔
      WalkDefined deepLoops 1 ∧ DeepConditionsIdle deepLoops deepNest (.arg 9 0 (.int 32)) 1 (.ofList [3, 5]) :=
  queriesCoverNest_iff deepLoops_natural deepNest_ids (by decide) (deepNest_conditionalExits 1)

/- From the outermost there are four, and the bound of the fourth is not seen. -/
theorem deepNest_missed : ConditionalExits deepLoops deepNest 0 ∧
    isValueUsedInLoopNestConditionsNull deepLoops deepNest true (.arg 9 0 (.int 32)) 0 = some false ∧
    (InNest deepLoops 0 3 ∧ UsedByCondition deepLoops deepNest (.arg 9 0 (.int 32)) 3) ∧
    ¬ QueriesCoverNest deepLoops deepNest true (.arg 9 0 (.int 32)) 0 (.ofList [3, 5]) := by
  have hquery : isValueUsedInLoopNestConditionsNull deepLoops deepNest true
    (.arg 9 0 (.int 32)) 0 = some false := by decide
  have huse : InNest deepLoops 0 3 ∧ UsedByCondition deepLoops deepNest (.arg 9 0 (.int 32)) 3 :=
    ⟨⟨by decide, by decide⟩, 28, ⟨.int 1, rfl⟩, by decide⟩
  refine ⟨deepNest_conditionalExits 0, hquery, huse, fun h => ?_⟩
  obtain ⟨b, hb, hiff⟩ := h.used
  obtain rfl := Option.some.inj (hquery.symm.trans hb)
  exact Bool.false_ne_true (hiff.mpr ⟨3, huse⟩)

end Main

end Atrox
