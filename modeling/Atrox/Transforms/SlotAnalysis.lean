import Atrox.Analysis.MaxBounds
import Atrox.Transforms.StackSlots

/-!
# Where the analysis of stack slots is defined

What `findStackAllocatable` needs to run to its end with its assertions: of the nest, of the exits of
the loops it looks at, and of each input.
-/

namespace Atrox
open IR Lib LoopInfo

section Nest
variable {S : Type} {LI : LoopInfo} {M : Module} {SE : ScalarEvolution S} (hLI : LI.Natural M) {lba : LoopBounds S}
  (hs : lba.Sound LI) {curL : LoopId} (hL : curL < LI.loops.length)
include hLI hs hL

omit hLI hs hL in
/- When the assertions about the exits hold. -/
theorem usedOnly_asserted_isSome (hin : LI.StaysInside M) (hbr : SingleTargets M) (hL : curL < LI.loops.length)
    (v : Value) (blocks : SetVector BlockId) :
    (isValueUsedOnlyInLoopNestConditions LI M true v curL blocks).isSome ↔
      WalkDefined LI curL ∧ ∀ e ∈ nestLoops LI curL, (LI.getExitingBlock M e).isSome := by
  rw [usedOnly_isSome]
  refine and_congr_right fun _ => forall₂_congr fun e he => ?_
  rw [getBackedgeCondition_isSome hin hbr (nestLoops_lt hL he)]
  exact forall_prop_of_true rfl

omit hL in
/- The constant that an inner induction variable starts from. -/
theorem answers_start {t : LoopId} (ht : lba.topL = some t) (htL : t ∈ LI.enclosing curL) {evalLBA : LoopBounds S}
    (heval : lba.evaluate LI SE 0 5 curL = some evalLBA) {asserts : Bool} {blocks : SetVector BlockId} {e : LoopId}
    {v : Value} (hv : lba.loopBoundsMap.Has e v) (he : LI.Inner curL e) :
    (((lba.answers LI M SE asserts evalLBA curL blocks).getInfo v).bind fun i => i.start) =
      ((lba.loopBoundsMap.at e).start.map ((evaluateInScope SE 0 e)^[LI.depthOf curL])).bind SE.constant := by
  obtain ⟨t', -, hlt, -⟩ := hs.nest e v hv
  rw [answers_getInfo hs (evaluate_shape ht heval) hv, Option.bind_some, evaluate_start hLI hs ht hlt htL he heval]

/- The constant, if it is one, that an outer induction variable starts from. -/
theorem answers_outerStart {t : LoopId} (ht : lba.topL = some t) (htL : t ∈ LI.enclosing curL) {evalLBA : LoopBounds S}
    (heval : lba.evaluate LI SE 0 5 curL = some evalLBA) {asserts : Bool} {blocks : SetVector BlockId} {e : LoopId}
    {v : Value} (hv : lba.loopBoundsMap.Has e v) (he : LI.Inner e curL) :
    (lba.answers LI M SE asserts evalLBA curL blocks).getInfo v = some ⟨v, ((lba.loopBoundsMap.at e).start.map fun s =>
      evaluateAddRec SE 0 ((evaluateInScope SE 0 e)^[LI.depthOf e - 1] s)).bind SE.constant⟩ := by
  have hstart := evaluate_around hLI hs ht hL htL he.2 heval false
  rw [answers_getInfo hs (evaluate_shape ht heval) hv]
  exact congrArg (fun s : Option S => some (⟨v, s.bind SE.constant⟩ : LoopIterationSpaceInfo)) hstart

/- The round of an input passes its assertions, and asks for constants of integer types only. -/
theorem slotDefined_iff (hin : LI.StaysInside M) (hM : M.Ids) (hbr : SingleTargets M) {t : LoopId}
    (ht : lba.topL = some t) (htL : t ∈ LI.enclosing curL) {evalLBA : LoopBounds S}
    (heval : lba.evaluate LI SE 0 5 curL = some evalLBA) (blocks : SetVector BlockId) (v : Value) :
    (SlotDefined (lba.answers LI M SE true evalLBA curL blocks) v ∧
      (isValueUsedOnlyInLoopNestConditions LI M true v curL blocks = some true ∨
        lba.isValueOuterLoopInductionVariable LI v curL = true → v.ty.isIntegerTy = true)) ↔
    (WalkDefined LI curL ∧ ∀ e ∈ nestLoops LI curL, (LI.getExitingBlock M e).isSome) ∧
      (OnlyInConditions LI M curL blocks v → ¬(OuterVariable LI lba curL v ∨ InnerVariable LI lba curL v)) ∧
      (OnlyInConditions LI M curL blocks v ∨ OuterVariable LI lba curL v → v.ty.isIntegerTy = true) ∧
      (∀ e, lba.loopBoundsMap.Has e v → LI.Inner curL e →
        (((lba.loopBoundsMap.at e).start.map ((evaluateInScope SE 0 e)^[LI.depthOf curL])).bind SE.constant).isSome) ∧
      ∀ e, lba.loopBoundsMap.Has e v → LI.Inner e curL → ∀ n, ((lba.loopBoundsMap.at e).start.map fun s =>
        evaluateAddRec SE 0 ((evaluateInScope SE 0 e)^[LI.depthOf e - 1] s)).bind SE.constant = some n → n < 2 ^ 64 := by
  have hexits := usedOnly_asserted_isSome hin hbr hL v blocks
  have hcond : (isValueUsedOnlyInLoopNestConditions LI M true v curL blocks).isSome →
      (isValueUsedOnlyInLoopNestConditions LI M true v curL blocks = some true ↔
        OnlyInConditions LI M curL blocks v) := by
    intro hsome
    obtain ⟨b, hb⟩ := Option.isSome_iff_exists.mp hsome
    rw [← usedOnly_iff hM hb, hb, Option.some.injEq]
  have hout := isValueOuter_iff hLI hs hL v
  have hinn : lba.isValueInnerLoopInductionVariable LI v curL = true ↔ InnerVariable LI lba curL v :=
    isValueInner_iff hLI hs v
  constructor
  · intro ⟨hdef, hint⟩
    have hc := hcond hdef.answered
    refine ⟨hexits.mp hdef.answered, fun ho => ?_, fun ho => hint (ho.imp hc.mpr hout.mpr), fun e hv he => ?_,
      fun e hv he => ?_⟩
    · rw [← hout, ← hinn]
      exact hdef.notBoth (hc.mpr ho)
    · rw [← answers_start hLI hs ht htL heval hv he]
      exact hdef.inner (hinn.mpr ⟨e, hv, he⟩)
    · have hsome := hdef.outer (hout.mpr ⟨e, hv, he⟩)
      rw [answers_outerStart hLI hs hL ht htL heval hv he, Option.bind_some] at hsome
      exact outerStart_isSome_iff.mp (Option.isSome_of_isSome_bind hsome)
  · intro ⟨hex, hboth, hint, hstart, hwide⟩
    have hans := hexits.mpr hex
    have hc := hcond hans
    refine ⟨⟨hans, fun ho => ?_, fun hi => ?_, fun ho => ?_, fun ho => ?_⟩, fun ho => hint (ho.imp hc.mp hout.mp)⟩
    · have hnot := hboth (hc.mp ho)
      rw [← hout, ← hinn] at hnot
      exact hnot
    · obtain ⟨e, hv, he⟩ := hinn.mp hi
      rw [answers_start hLI hs ht htL heval hv he]
      exact hstart e hv he
    · obtain ⟨e, hv, he⟩ := hout.mp ho
      rw [answers_outerStart hLI hs hL ht htL heval hv he, Option.bind_some]
      obtain ⟨val, hval⟩ := Option.isSome_iff_exists.mp (outerStart_isSome_iff.mpr (hwide e hv he))
      rw [hval, Option.bind_some]
      rw [constantIntGet_isSome]
      exact isIntOrIntVectorTy_of_int (hint (.inr (hout.mp ho)))
    · rw [constantIntGet_isSome]
      exact isIntOrIntVectorTy_of_int (hint (.inl (hc.mp ho)))

end Nest

section Defined
variable {S : Type} {LI : LoopInfo} {M : Module} {SE : ScalarEvolution S} {lba₀ lba : LoopBounds S} {curL : LoopId}
  (hLI : LI.Natural M) (hin : LI.StaysInside M) (hM : M.Ids) (hbr : SingleTargets M) (hL : curL < LI.loops.length)
  (h₀ : lba₀.Analyzed LI) (hrun : lba₀.analyze LI M SE curL = some lba) (ce : CodeExtractor)

/- What the analysis of the slots needs of the nest, of its exits and of each input. -/
structure SlotsAnalyzable (LI : LoopInfo) (M : Module) (SE : ScalarEvolution S) (lba : LoopBounds S) (curL : LoopId)
    (ce : CodeExtractor) : Prop where
  inductionVariables : ∀ e < LI.loops.length, LI.Inner (LI.topLoop curL) e → ∃ v, lba.loopBoundsMap.Has e v
  exits : ce.inputs.elems ≠ [] →
    WalkDefined LI curL ∧ ∀ e ∈ nestLoops LI curL, (LI.getExitingBlock M e).isSome
  notBoth : ∀ v ∈ ce.inputs, OnlyInConditions LI M curL ce.blocks v →
    ¬(OuterVariable LI lba curL v ∨ InnerVariable LI lba curL v)
  integer : ∀ v ∈ ce.inputs, OnlyInConditions LI M curL ce.blocks v ∨ OuterVariable LI lba curL v →
    v.ty.isIntegerTy = true
  startConstant : ∀ v ∈ ce.inputs, ∀ e, lba.loopBoundsMap.Has e v → LI.Inner curL e →
    (((lba.loopBoundsMap.at e).start.map ((evaluateInScope SE 0 e)^[LI.depthOf curL])).bind SE.constant).isSome
  startBits : ∀ v ∈ ce.inputs, ∀ e, lba.loopBoundsMap.Has e v → LI.Inner e curL →
    ∀ n, ((lba.loopBoundsMap.at e).start.map fun s =>
      evaluateAddRec SE 0 ((evaluateInScope SE 0 e)^[LI.depthOf e - 1] s)).bind SE.constant = some n → n < 2 ^ 64

include hLI hin hM hbr hL h₀ hrun

/- The analysis runs to its end, with its assertions, and asks for integer constants of integer types only,
exactly on these nests and inputs. -/
theorem stackSlots_defined_iff :
    ((lba.findStackAllocatable LI M SE true curL ce).isSome ∧
      ∀ v ∈ ce.inputs, isValueUsedOnlyInLoopNestConditions LI M true v curL ce.blocks = some true ∨
        lba.isValueOuterLoopInductionVariable LI v curL = true → v.ty.isIntegerTy = true) ↔
    SlotsAnalyzable LI M SE lba curL ce := by
  obtain ⟨hs, htop⟩ := analyze_sound hLI hM (h₀.sound hLI) hL hrun
  have htL := (topLoop_spec hLI hL).1
  have heval : (lba.evaluate LI SE 0 5 curL).isSome ↔
      ∀ e < LI.loops.length, LI.Inner (LI.topLoop curL) e → ∃ v, lba.loopBoundsMap.Has e v := by
    rw [evaluate_isSome_iff hLI hs htop]
    simp only [Option.isSome_iff_exists, BoundsMap.Has]
  have hinputs : ∀ evalLBA, lba.evaluate LI SE 0 5 curL = some evalLBA →
      ((lba.findStackAllocatable LI M SE true curL ce).isSome ↔
        ∀ v ∈ ce.inputs, SlotDefined (lba.answers LI M SE true evalLBA curL ce.blocks) v) := by
    intro evalLBA h
    rw [LoopBounds.findStackAllocatable, h, Option.bind_some]
    simp only [if_true]
    exact findStackAllocatable_isSome_iff rfl
  constructor
  · rintro ⟨hsome, hint⟩
    obtain ⟨ce', hslot⟩ := Option.isSome_iff_exists.mp hsome
    obtain ⟨evalLBA, h, -⟩ := Option.bind_eq_some_iff.mp hslot
    have hdef := (hinputs evalLBA h).mp hsome
    have hall := fun v hv =>
      (slotDefined_iff hLI hs hL hin hM hbr htop htL h ce.blocks v).mp ⟨hdef v hv, hint v hv⟩
    constructor
    · exact heval.mp (Option.isSome_iff_exists.mpr ⟨evalLBA, h⟩)
    · intro hne
      obtain ⟨v, hv⟩ := List.exists_mem_of_ne_nil _ hne
      exact (hall v hv).1
    · exact fun v hv => (hall v hv).2.1
    · exact fun v hv => (hall v hv).2.2.1
    · exact fun v hv => (hall v hv).2.2.2.1
    · exact fun v hv => (hall v hv).2.2.2.2
  · intro h
    obtain ⟨evalLBA, he⟩ := Option.isSome_iff_exists.mp (heval.mpr h.inductionVariables)
    have hall := fun v hv => (slotDefined_iff hLI hs hL hin hM hbr htop htL he ce.blocks v).mpr
      ⟨h.exits (List.ne_nil_of_mem hv), h.notBoth v hv, h.integer v hv, h.startConstant v hv, h.startBits v hv⟩
    exact ⟨(hinputs evalLBA he).mpr fun v hv => (hall v hv).1, fun v hv => (hall v hv).2⟩

end Defined

theorem triangularNest_analyzable : ∃ lba, triangularBounds = some lba ∧
    SlotsAnalyzable triangularLoops triangularNest (countingSE [10, 11, 12]) lba 1 bodyExtractor := by
  have hL : (1 : LoopId) < triangularLoops.loops.length := by decide
  have hrun : triangularBounds.any (fun lba =>
      (lba.findStackAllocatable triangularLoops triangularNest (countingSE [10, 11, 12]) true 1 bodyExtractor).isSome &&
      bodyExtractor.inputs.elems.all fun v => !(lba.isValueOuterLoopInductionVariable triangularLoops v 1)) = true := by
    decide
  obtain ⟨lba, hlba, hrun⟩ := (Option.any_eq_true _ _).mp hrun
  rw [Bool.and_eq_true, List.all_eq_true] at hrun
  have hcond : ∀ v ∈ bodyExtractor.inputs.elems, isValueUsedOnlyInLoopNestConditions triangularLoops triangularNest true
      v 1 bodyExtractor.blocks ≠ some true := by decide
  refine ⟨lba, hlba, (stackSlots_defined_iff triangularLoops_natural triangularLoops_staysInside triangularNest_ids
    triangularNest_singleTargets hL .init hlba bodyExtractor).mp ⟨hrun.1, fun v hv hor => ?_⟩⟩
  rcases hor with h | h
  · exact absurd h (hcond v hv)
  · have hout := hrun.2 v hv
    rw [h] at hout
    exact absurd hout (by decide)

/- `for (i = 0; i < n; ++i) if (a[i] < 0) break;` -/
def searchLoop : Module where
  funcs := [{ id := 9, params := [⟨"a", .ptr (.int 32) 0⟩, ⟨"n", .int 32⟩], isVarArg := false, blocks :=
    [⟨0, [Inst.uncondBr 20 1], false⟩,
     ⟨1, [⟨10, .phi, .int 32, [.const (.int 32 0), .inst 15 (.int 32)], [0, 3], []⟩,
          ⟨11, .other 0, .int 1, [.inst 10 (.int 32), .arg 9 1 (.int 32)], [], []⟩,
          ⟨21, .br, .void, [.inst 11 (.int 1)], [], [2, 4]⟩], false⟩,
     ⟨2, [⟨12, .getElementPtr, .ptr (.int 32) 0, [.arg 9 0 (.ptr (.int 32) 0), .inst 10 (.int 32)], [], []⟩,
          ⟨13, .load, .int 32, [.inst 12 (.ptr (.int 32) 0)], [], []⟩,
          ⟨14, .other 0, .int 1, [.inst 13 (.int 32), .const (.int 32 0)], [], []⟩,
          ⟨22, .br, .void, [.inst 14 (.int 1)], [], [4, 3]⟩], false⟩,
     ⟨3, [⟨15, .add, .int 32, [.inst 10 (.int 32), .const (.int 32 1)], [], []⟩, Inst.uncondBr 23 1], false⟩,
     ⟨4, [⟨24, .ret, .void, [], [], []⟩], false⟩] }]
  nextId := 30
  valueName := fun _ => ""
  initUsesBlockAddress := fun _ => false

def searchLoops : LoopInfo where
  loops := [⟨1, [1, 2, 3], none⟩]
  bbMap := fun b => [(1, 0), (2, 0), (3, 0)].lookup b

/- The test of the element as the region: the loop is left through two blocks. -/
theorem searchLoop_asserts : ∃ lba, LoopBounds.empty.analyze searchLoops searchLoop (countingSE [10]) 0 = some lba ∧
    searchLoops.getExitingBlocks searchLoop 0 = [1, 2] ∧ getBackedgeCondition searchLoops searchLoop true 0 = none ∧
    lba.findStackAllocatable searchLoops searchLoop (countingSE [10]) true 0 (extractorOf searchLoop [2]) = none ∧
    ¬((lba.findStackAllocatable searchLoops searchLoop (countingSE [10]) true 0 (extractorOf searchLoop [2])).isSome ∧
      ∀ v ∈ (extractorOf searchLoop [2]).inputs,
        isValueUsedOnlyInLoopNestConditions searchLoops searchLoop true v 0 (extractorOf searchLoop [2]).blocks = some true ∨
          lba.isValueOuterLoopInductionVariable searchLoops v 0 = true → v.ty.isIntegerTy = true) := by
  have hrun : (LoopBounds.empty.analyze searchLoops searchLoop (countingSE [10]) 0).any (fun lba =>
      (lba.findStackAllocatable searchLoops searchLoop (countingSE [10]) true 0 (extractorOf searchLoop [2])).isNone) =
        true := by decide
  obtain ⟨lba, hlba, hnone⟩ := (Option.any_eq_true _ _).mp hrun
  rw [Option.isNone_iff_eq_none] at hnone
  refine ⟨lba, hlba, by decide, by decide, hnone, fun h => ?_⟩
  rw [hnone] at h
  exact absurd h.1 (by decide)

end Atrox
