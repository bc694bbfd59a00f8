import Atrox.Analysis.MaxBounds

/-!
# Starts below the target

The walk of `evaluate` ends at the target, so a loop below it is looked at once for each loop around
the target, however many loops its start is a recurrence over.
-/

namespace Atrox
open IR Lib LoopInfo

section Inner
variable {S : Type} {LI : LoopInfo} {SE : ScalarEvolution S} {loopOf : S → LoopId} {width : S → Nat}

/- `evaluate` returns, and the start of each loop below the target is a constant then. -/
def InnerStartsConstant (LI : LoopInfo) (SE : ScalarEvolution S) (lba : LoopBounds S) (start stop : Nat)
    (target : LoopId) : Prop :=
  ∃ lba', lba.evaluate LI SE start stop target = some lba' ∧ ∀ l < LI.loops.length, LI.Inner target l →
    ∃ b c, (lba'.loopBoundsMap.at l).start = some b ∧ SE.constant b = some c

/- Some looks at a start leave a constant when no more loops make a difference to it. -/
theorem innerStart_constant_iff (h : EvaluatesRecurrences LI SE loopOf width)
    (hnorm : (SE.recurrences loopOf width).Normalized) {M : Module} (hLI : LI.Natural M) {l : LoopId}
    (hl : l < LI.loops.length) {s : S} (hs : (SE.recurrences loopOf width).Over (LI.enclosing l) s) (n k : Nat) :
    (∃ c, SE.constant ((evaluateInScope SE n l)^[k] s) = some c) ↔
      Recurrences.mattering n (LI.enclosing l) ((SE.recurrences loopOf width).valueAt s) ≤ k := by
  have hexcl : ∀ s c, (SE.recurrences loopOf width).constant s = some c →
      (SE.recurrences loopOf width).addRec s = none := by
    intro s c hc
    unfold ScalarEvolution.recurrences
    dsimp only
    rw [h.exclusive s c hc, Option.bind_none]
  rw [(evaluateInScope_iterate h hl hs n k).1]
  exact Recurrences.iterate_constant_iff hexcl hnorm (h.substitutes l hl) List.suffix_rfl
    (enclosing_nodup hLI hl) hs k

/- In a nest whose starts are constants or recurrences over the loops around, those of the loops below the target
become constant exactly when, of the loops around each, no more make a difference than there are loops
around the target. -/
theorem evaluate_innerStarts_iff (h : EvaluatesRecurrences LI SE loopOf width)
    (hnorm : (SE.recurrences loopOf width).Normalized) {M : Module} (hLI : LI.Natural M) {lba : LoopBounds S}
    (hr : lba.Reached LI) {t : LoopId} (ht : lba.topL = some t)
    (hvar : ∀ l < LI.loops.length, t ∈ LI.enclosing l → (lba.loopBoundsMap.at l).inductionVariable.isSome = true)
    (hstored : ∀ l < LI.loops.length, t ∈ LI.enclosing l → ∀ a, (lba.loopBoundsMap.at l).start = some a →
      (SE.recurrences loopOf width).Over (LI.enclosing l) a)
    {target : LoopId} (htt : t ∈ LI.enclosing target) (start stop : Nat) :
    InnerStartsConstant LI SE lba start stop target ↔
    ∀ l < LI.loops.length, LI.Inner target l → ∀ a, (lba.loopBoundsMap.at l).start = some a →
      Recurrences.mattering start (LI.enclosing l) ((SE.recurrences loopOf width).valueAt a) ≤ LI.depthOf target := by
  have hs := hr.sound hLI
  have hsome : (lba.evaluate LI SE start stop target).isSome :=
    (evaluate_isSome_iff hLI hs ht target).mpr fun l hl hin => hvar l hl hin.2
  obtain ⟨lba', hrun⟩ := Option.isSome_iff_exists.mp hsome
  have hstart : ∀ l < LI.loops.length, LI.Inner target l → ∃ a, (lba.loopBoundsMap.at l).start = some a ∧
      (lba'.loopBoundsMap.at l).start = some ((evaluateInScope SE start l)^[LI.depthOf target] a) ∧
      (SE.recurrences loopOf width).Over (LI.enclosing l) a := by
    intro l hl hin
    have htl := enclosing_trans hLI hl hin.2 htt
    have hisSome := (hs.bounded l).1.trans (hvar l hl htl)
    obtain ⟨a, ha⟩ := Option.isSome_iff_exists.mp hisSome
    have hafter := evaluate_start hLI hs ht hl htt hin hrun
    rw [ha] at hafter
    exact ⟨a, ha, hafter, hstored l hl htl a ha⟩
  constructor
  · rintro ⟨lba'', hrun', hconst⟩ l hl hin a ha
    obtain rfl := Option.some.inj (hrun.symm.trans hrun')
    obtain ⟨a', ha', hafter, hover⟩ := hstart l hl hin
    obtain rfl := Option.some.inj (ha.symm.trans ha')
    obtain ⟨b, c, hb, hc⟩ := hconst l hl hin
    obtain rfl := Option.some.inj (hafter.symm.trans hb)
    exact (innerStart_constant_iff h hnorm hLI hl hover start _).mp ⟨c, hc⟩
  · intro hfew
    refine ⟨lba', hrun, fun l hl hin => ?_⟩
    obtain ⟨a, ha, hafter, hover⟩ := hstart l hl hin
    obtain ⟨c, hc⟩ := (innerStart_constant_iff h hnorm hLI hl hover start _).mpr (hfew l hl hin a ha)
    exact ⟨_, c, hafter, hc⟩

end Inner

section Triple

/- Scalar evolution that makes no recurrence of a zero step. -/
def nonzeroStep (step : Nat) : Bool := step % 2 ^ 32 ≠ 0

theorem nonzeroStep_normalized (phis : List (InstId × AffineSCEV)) :
    (steppedRecurrences nonzeroStep phis).Normalized := by
  intro s a b l hs
  obtain ⟨step, hstep, rfl, rfl⟩ := stepped_addRec.mp hs
  refine ⟨rfl, fun c hc => ?_⟩
  obtain rfl := Option.some.inj hc
  exact of_decide_eq_true hstep

/- `for (i = 0; ; ) for (j = i; ; ) for (k = j; ; )`, each tested at the bottom. -/
def tripleNest : Module where
  funcs := [{ id := 9, params := [⟨"n", .int 32⟩], isVarArg := false, blocks :=
    [⟨0, [Inst.uncondBr 30 1], false⟩,
     ⟨1, [⟨10, .phi, .int 32, [.const (.int 32 0), .inst 14 (.int 32)], [0, 5], []⟩, Inst.uncondBr 31 2], false⟩,
     ⟨2, [⟨11, .phi, .int 32, [.inst 10 (.int 32), .inst 15 (.int 32)], [1, 4], []⟩, Inst.uncondBr 32 3], false⟩,
     ⟨3, [⟨12, .phi, .int 32, [.inst 11 (.int 32), .inst 16 (.int 32)], [2, 3], []⟩,
          ⟨16, .add, .int 32, [.inst 12 (.int 32), .const (.int 32 1)], [], []⟩,
          ⟨17, .other 0, .int 1, [.inst 16 (.int 32), .arg 9 0 (.int 32)], [], []⟩,
          ⟨33, .br, .void, [.inst 17 (.int 1)], [], [3, 4]⟩], false⟩,
     ⟨4, [⟨15, .add, .int 32, [.inst 11 (.int 32), .const (.int 32 1)], [], []⟩,
          ⟨18, .other 0, .int 1, [.inst 15 (.int 32), .arg 9 0 (.int 32)], [], []⟩,
          ⟨34, .br, .void, [.inst 18 (.int 1)], [], [2, 5]⟩], false⟩,
     ⟨5, [⟨14, .add, .int 32, [.inst 10 (.int 32), .const (.int 32 1)], [], []⟩,
          ⟨19, .other 0, .int 1, [.inst 14 (.int 32), .arg 9 0 (.int 32)], [], []⟩,
          ⟨35, .br, .void, [.inst 19 (.int 1)], [], [1, 6]⟩], false⟩,
     ⟨6, [⟨36, .ret, .void, [], [], []⟩], false⟩] }]
  nextId := 40
  valueName := fun _ => ""
  initUsesBlockAddress := fun _ => false

def tripleLoops : LoopInfo where
  loops := [⟨1, [1, 2, 3, 4, 5], none⟩, ⟨2, [2, 3, 4], some 0⟩, ⟨3, [3], some 1⟩]
  bbMap := fun b => [(1, 0), (5, 0), (2, 1), (4, 1), (3, 2)].lookup b

theorem tripleLoops_natural : tripleLoops.Natural tripleNest :=
  LoopInfo.natural_of_lookup (by decide) (by decide) (by decide) (by decide) (by decide) (by decide)

/- The starts of the three loops: zero, then the induction variable of the loop around. -/
def tripleStart : Nat → AffineSCEV
  | 0 => .constant 0
  | l + 1 => .addRec (tripleStart l) 1 l

def triplePHIs : List (InstId × AffineSCEV) := [(10, tripleStart 1), (11, tripleStart 2), (12, tripleStart 3)]

/- The analyzer of the nest. -/
def tripleBounds : LoopBounds AffineSCEV :=
  (LoopBounds.empty.analyze tripleLoops tripleNest (steppedSE nonzeroStep triplePHIs) 0).getD .empty

theorem tripleBounds_eq :
    LoopBounds.empty.analyze tripleLoops tripleNest (steppedSE nonzeroStep triplePHIs) 0 = some tripleBounds :=
  rfl

theorem tripleStart_over (l : Nat) :
    (steppedRecurrences nonzeroStep triplePHIs).Over (List.range l).reverse (tripleStart l) := by
  induction l with
  | zero => exact .constant rfl rfl
  | succ l ih =>
    rw [List.range_succ, List.reverse_append, List.reverse_singleton, List.singleton_append]
    exact .addRec [] _ rfl ih (.constant rfl rfl)

theorem tripleBounds_start {l : LoopId} (hl : l < tripleLoops.loops.length) :
    (tripleBounds.loopBoundsMap.at l).start = some (tripleStart l) :=
  match l, hl with
  | 0, _ => rfl
  | 1, _ => rfl
  | 2, _ => rfl

theorem tripleBounds_stored {l : LoopId} (hl : l < tripleLoops.loops.length) {a : AffineSCEV}
    (ha : (tripleBounds.loopBoundsMap.at l).start = some a) :
    (steppedRecurrences nonzeroStep triplePHIs).Over (tripleLoops.enclosing l) a := by
  have hnest : ∀ l < tripleLoops.loops.length, tripleLoops.enclosing l = [l] ++ (List.range l).reverse := by
    decide
  obtain rfl := Option.some.inj ((tripleBounds_start hl).symm.trans ha)
  rw [hnest l hl]
  exact (tripleStart_over l).append [l]

/- For the outermost loop the innermost one starts where the outermost is afterwards, in whatever iteration. -/
theorem tripleNest_innermost :
    (∀ l < tripleLoops.loops.length, (tripleBounds.loopBoundsMap.at l).inductionVariable.isSome = true ∧
      ∃ a, (tripleBounds.loopBoundsMap.at l).start = some a ∧
        (steppedRecurrences nonzeroStep triplePHIs).Over (tripleLoops.enclosing l) a) ∧
    ¬ InnerStartsConstant tripleLoops (steppedSE nonzeroStep triplePHIs) tripleBounds 0 5 0 := by
  constructor
  · intro l hl
    have hvar : ∀ l < tripleLoops.loops.length,
      (tripleBounds.loopBoundsMap.at l).inductionVariable.isSome = true := by decide
    exact ⟨hvar l hl, _, tripleBounds_start hl, tripleBounds_stored hl (tripleBounds_start hl)⟩
  · rintro ⟨lba', hrun, hconst⟩
    have hafter : (tripleBounds.evaluate tripleLoops (steppedSE nonzeroStep triplePHIs) 0 5 0).map
      (fun lba => (lba.loopBoundsMap.at 2).start) = some (some (.addRec (.constant 0) 1 0)) := rfl
    obtain ⟨b, c, hb, hc⟩ := hconst 2 (by decide) ⟨by decide, by decide⟩
    rw [hrun, Option.map_some, hb] at hafter
    cases hafter
    exact nomatch hc

theorem evaluate_innerStarts_iff_tripleNest :
    InnerStartsConstant tripleLoops (steppedSE nonzeroStep triplePHIs) tripleBounds 0 5 0 ↔
    ∀ l < tripleLoops.loops.length, tripleLoops.Inner 0 l →
      ∀ a, (tripleBounds.loopBoundsMap.at l).start = some a →
        Recurrences.mattering 0 (tripleLoops.enclosing l)
          ((steppedRecurrences nonzeroStep triplePHIs).valueAt a) ≤ tripleLoops.depthOf 0 :=
  evaluate_innerStarts_iff (steppedSE_evaluates tripleLoops) (nonzeroStep_normalized triplePHIs)
    tripleLoops_natural (.analyze .init ⟨by decide, by decide, by decide, by decide⟩ (by decide) tripleBounds_eq)
    rfl (by decide) (fun l hl _ a ha => tripleBounds_stored hl ha) (by decide) 0 5

end Triple

end Atrox
