import Atrox.Analysis.MaxBounds

/-!
# Iteration spaces after an evaluation

Whether `evaluate` returns depends on the loops below the outermost one having induction variables. For the
target, `analyze` enters the start of the recurrence for both ends, so there is no recurrence left to put
an iteration number into.
-/

namespace Atrox
open IR Lib LoopInfo

section Null
variable {S : Type} {LI : LoopInfo} {SE : ScalarEvolution S} {lba : LoopBounds S}

/- No null pointer is given to scalar evolution, and the loops without an induction variable keep theirs. -/
def ToleratesNull (LI : LoopInfo) (SE : ScalarEvolution S) (lba : LoopBounds S) (start stop : Nat) (target : LoopId) :
    Prop :=
  ∃ lba', lba.evaluate LI SE start stop target = some lba' ∧ ∀ l, (lba.loopBoundsMap.at l).inductionVariable = none →
    (lba'.loopBoundsMap.at l).start = none ∧ (lba'.loopBoundsMap.at l).stop = none

theorem null_of_bounded {m : BoundsMap S} (hm : m.Bounded) {l : LoopId} (h : (m.at l).inductionVariable = none) :
    (m.at l).start = none ∧ (m.at l).stop = none := by
  obtain ⟨hstart, hstop⟩ := hm l
  rw [h] at hstart hstop
  exact ⟨Option.not_isSome_iff_eq_none.mp (ne_true_of_eq_false hstart),
    Option.not_isSome_iff_eq_none.mp (ne_true_of_eq_false hstop)⟩

theorem evaluate_null {M : Module} (hLI : LI.Natural M) (hr : lba.Reached LI) {lba' : LoopBounds S} {start stop : Nat}
    {target : LoopId} (hrun : lba.evaluate LI SE start stop target = some lba') {l : LoopId}
    (h : (lba.loopBoundsMap.at l).inductionVariable = none) :
    (lba'.loopBoundsMap.at l).start = none ∧ (lba'.loopBoundsMap.at l).stop = none := by
  cases ht : lba.topL with
  | none =>
    rw [LoopBounds.evaluate, ht] at hrun
    cases hrun
    exact null_of_bounded (hr.sound hLI).bounded h
  | some t =>
    have hshape := evaluate_shape ht hrun
    exact null_of_bounded (hshape.bounded (hr.sound hLI).bounded) ((hshape l).1.trans h)

/- Loops without an induction variable are tolerated exactly when there are none of them below the outermost one. -/
theorem evaluate_toleratesNull_iff {M : Module} (hLI : LI.Natural M) (hr : lba.Reached LI) (start stop : Nat)
    (target : LoopId) : ToleratesNull LI SE lba start stop target ↔ ∀ t, lba.topL = some t →
      ∀ e < LI.loops.length, LI.Inner t e → (lba.loopBoundsMap.at e).inductionVariable.isSome = true := by
  constructor
  · rintro ⟨lba', hrun, -⟩ t ht
    exact (evaluate_isSome_iff hLI (hr.sound hLI) ht target).mp (Option.isSome_iff_exists.mpr ⟨lba', hrun⟩)
  · intro hvar
    have hsome : (lba.evaluate LI SE start stop target).isSome := by
      cases ht : lba.topL with
      | none =>
        rw [LoopBounds.evaluate, ht]
        rfl
      | some t => exact (evaluate_isSome_iff hLI (hr.sound hLI) ht target).mpr (hvar t ht)
    obtain ⟨lba', hrun⟩ := Option.isSome_iff_exists.mp hsome
    exact ⟨lba', hrun, fun l hl => evaluate_null hLI hr hrun hl⟩

end Null

section Waiting

/- `for (i = 0; ; ) do ; while (*p);`: there is nothing to count in the inner loop. -/
def waitingNest : Module where
  funcs := [{ id := 9, params := [⟨"n", .int 32⟩, ⟨"p", .ptr (.int 32) 0⟩], isVarArg := false, blocks :=
    [⟨0, [Inst.uncondBr 30 1], false⟩,
     ⟨1, [⟨10, .phi, .int 32, [.const (.int 32 0), .inst 12 (.int 32)], [0, 3], []⟩, Inst.uncondBr 31 2], false⟩,
     ⟨2, [⟨11, .load, .int 32, [.arg 9 1 (.ptr (.int 32) 0)], [], []⟩,
          ⟨15, .other 0, .int 1, [.inst 11 (.int 32), .const (.int 32 0)], [], []⟩,
          ⟨32, .br, .void, [.inst 15 (.int 1)], [], [2, 3]⟩], false⟩,
     ⟨3, [⟨12, .add, .int 32, [.inst 10 (.int 32), .const (.int 32 1)], [], []⟩,
          ⟨14, .other 0, .int 1, [.inst 12 (.int 32), .arg 9 0 (.int 32)], [], []⟩,
          ⟨33, .br, .void, [.inst 14 (.int 1)], [], [1, 4]⟩], false⟩,
     ⟨4, [⟨34, .ret, .void, [], [], []⟩], false⟩] }]
  nextId := 40
  valueName := fun _ => ""
  initUsesBlockAddress := fun _ => false

/- The loops have the blocks that those of `slantedNest` have. -/
theorem waitingLoops_natural : slantedLoops.Natural waitingNest :=
  LoopInfo.natural_of_lookup (by decide) (by decide) (by decide) (by decide) (by decide) (by decide)

def waitingPHIs : List (InstId × AffineSCEV) := [(10, .addRec (.constant 0) 1 0)]

/- The analyzer of the nest. -/
def waitingBounds : LoopBounds AffineSCEV :=
  (LoopBounds.empty.analyze slantedLoops waitingNest (affineSE waitingPHIs) 0).getD .empty

theorem waitingBounds_eq :
    LoopBounds.empty.analyze slantedLoops waitingNest (affineSE waitingPHIs) 0 = some waitingBounds := rfl

/- The inner loop has null bounds, and the round of the outer one gives them to scalar evolution. -/
theorem waitingNest_null :
    (waitingBounds.loopBoundsMap.at 1).inductionVariable = none ∧ (waitingBounds.loopBoundsMap.at 1).start.isNone ∧
    waitingBounds.evaluate slantedLoops (affineSE waitingPHIs) 0 5 0 = none ∧
    ¬ ToleratesNull slantedLoops (affineSE waitingPHIs) waitingBounds 0 5 0 := by
  have hnone : waitingBounds.evaluate slantedLoops (affineSE waitingPHIs) 0 5 0 = none := rfl
  refine ⟨rfl, rfl, hnone, ?_⟩
  rintro ⟨lba', hrun, -⟩
  exact nomatch hnone.symm.trans hrun

theorem evaluate_toleratesNull_iff_waitingNest :
    ToleratesNull slantedLoops (affineSE waitingPHIs) waitingBounds 0 5 0 ↔ ∀ t, waitingBounds.topL = some t →
      ∀ e < slantedLoops.loops.length, slantedLoops.Inner t e →
        (waitingBounds.loopBoundsMap.at e).inductionVariable.isSome = true :=
  evaluate_toleratesNull_iff waitingLoops_natural
    (.analyze .init ⟨by decide, by decide, by decide, by decide⟩ (by decide) waitingBounds_eq) 0 5 0

end Waiting

section Target
variable {S : Type} (LI : LoopInfo) (M : Module) (SE : ScalarEvolution S)

/- `GetInductionVariable` finds one, and it is a recurrence. -/
def Counted (l : LoopId) : Prop :=
  ∃ ind, getInductionVariable LI M SE l = some ind ∧ (SE.addRec (SE.getSCEV ind.val)).isSome = true

/- The induction variable of the loop is `{a,+,d}` with constants `a` and `d`. -/
def AffineVariable (l : LoopId) (a d : Nat) : Prop :=
  ∃ ind r, getInductionVariable LI M SE l = some ind ∧ SE.addRec (SE.getSCEV ind.val) = some r ∧ r.isAffine = true ∧
    SE.constant r.start = some a ∧ SE.constant r.step = some d

/- On a fresh analyzer `analyze` and `evaluate` return, and then the entry of the target has the values that
`{a,+,d}` takes in the first iteration and in the last, on `w` bits. -/
def SpansIterations (w a d start stop : Nat) (target : LoopId) : Prop :=
  ∃ lba lba', LoopBounds.empty.analyze LI M SE target = some lba ∧
    lba.evaluate LI SE start stop target = some lba' ∧
    (∃ b c, (lba'.loopBoundsMap.at target).start = some b ∧ SE.constant b = some c ∧
      c % 2 ^ w = (a + start * d) % 2 ^ w) ∧
    ∃ b c, (lba'.loopBoundsMap.at target).stop = some b ∧ SE.constant b = some c ∧
      c % 2 ^ w = (a + stop * d) % 2 ^ w

variable {LI M SE}

theorem iterationSpace_isSome {l : LoopId} :
    (iterationSpace LI M SE l).inductionVariable.isSome = true ↔ Counted LI M SE l := by
  unfold iterationSpace Counted
  cases getInductionVariable LI M SE l with
  | none => simp [LoopIterationSpace.empty]
  | some ind => cases h : SE.addRec (SE.getSCEV ind.val) <;> simp [LoopIterationSpace.empty, h]

/- What a fresh analyzer has after `analyze`: an entry for each loop of the nest. -/
theorem analyze_fresh (SE : ScalarEvolution S) (hLI : LI.Natural M) {target : LoopId}
    (htarget : target < LI.loops.length) :
    ∃ lba, (LoopBounds.empty : LoopBounds S).analyze LI M SE target = some lba ∧ lba.topL = some (LI.topLoop target) ∧
      ∀ e < LI.loops.length, LI.topLoop target ∈ LI.enclosing e →
        lba.loopBoundsMap.at e = iterationSpace LI M SE e := by
  obtain ⟨h, hh⟩ := headerOf_some htarget
  obtain ⟨hmem, -⟩ := topLoop_spec hLI htarget
  have hin : (LI.headerOf target).bind LI.getLoopFor = some target := by
    rw [hh]
    exact hLI.header target h hh
  have hrun : (LoopBounds.empty : LoopBounds S).analyze LI M SE target = some ⟨some (LI.topLoop target),
      (LI.getLoopsInPreorder.filter (LI.containsHeader (LI.topLoop target))).foldl
        (fun m e => m.insert e (iterationSpace LI M SE e)) ∅⟩ := by
    rw [LoopBounds.analyze, if_pos hin]
    exact if_neg nofun
  refine ⟨_, hrun, rfl, fun e he hte => ?_⟩
  have hwork : e ∈ LI.getLoopsInPreorder.filter (LI.containsHeader (LI.topLoop target)) :=
    List.mem_filter.mpr ⟨List.mem_range.mpr he, (containsHeader_iff hLI (enclosing_lt hLI htarget hmem) he).mpr hte⟩
  exact (foldl_insert_at _ e).trans (if_pos hwork)

/- A constant is not evaluated any further. -/
theorem evaluations_stay (hexcl : ∀ s c, SE.constant s = some c → SE.addRec s = none)
    (hscope : ∀ s c l, SE.constant s = some c → SE.getSCEVAtScope s l = s) {s : S} {c : Nat}
    (hc : SE.constant s = some c) (l : LoopId) (n k : Nat) :
    evaluateAddRec SE n ((evaluateInScope SE n l)^[k] s) = s := by
  have hstay : evaluateInScope SE n l s = s := by
    unfold evaluateInScope
    dsimp only
    rw [hscope s c l hc, hexcl s c hc]
    rfl
  rw [Function.iterate_fixed hstay, evaluateAddRec, hexcl s c hc]
  rfl

/- The entry of the target has its start, however it is evaluated. -/
theorem evaluate_affine (hexcl : ∀ s c, SE.constant s = some c → SE.addRec s = none)
    (hscope : ∀ s c l, SE.constant s = some c → SE.getSCEVAtScope s l = s) (hLI : LI.Natural M) (hM : M.Ids)
    {target : LoopId} (htarget : target < LI.loops.length) {a d : Nat} (h : AffineVariable LI M SE target a d)
    {lba lba' : LoopBounds S} {start stop : Nat} (hrun : LoopBounds.empty.analyze LI M SE target = some lba)
    (heval : lba.evaluate LI SE start stop target = some lba') (isEnd : Bool) :
    ∃ b, (lba'.loopBoundsMap.at target).bound isEnd = some b ∧ SE.constant b = some a := by
  obtain ⟨ind, r, hind, hr, -, ha, -⟩ := h
  obtain ⟨lba₁, hrun₁, htop, hentry⟩ := analyze_fresh SE hLI htarget
  obtain rfl := Option.some.inj (hrun₁.symm.trans hrun)
  obtain ⟨hs, ht⟩ := analyze_sound hLI hM LoopBounds.sound_empty htarget hrun
  have hmem := (topLoop_spec hLI htarget).1
  have hstored : (lba₁.loopBoundsMap.at target).bound isEnd = some r.start := by
    rw [hentry target htarget hmem, iterationSpace, hind]
    dsimp only
    rw [hr]
    cases isEnd <;> rfl
  have hbound := evaluate_around hLI hs ht htarget hmem (self_enclosing hLI htarget) heval isEnd
  rw [hstored, Option.map_some, evaluations_stay hexcl hscope ha] at hbound
  exact ⟨r.start, hbound, ha⟩

theorem mod_eq_add_mod_iff {a b n : Nat} : a % n = (a + b) % n ↔ n ∣ b := by
  constructor
  · intro h
    have hzero := Nat.sub_mod_eq_zero_of_mod_eq h.symm
    rw [Nat.add_sub_cancel_left] at hzero
    exact Nat.dvd_of_mod_eq_zero hzero
  · rintro ⟨k, rfl⟩
    rw [Nat.add_mul_mod_self_left]

/- Both ends are the start of the recurrence: right when the steps up to them come to nothing. -/
theorem spansIterations_iff (hexcl : ∀ s c, SE.constant s = some c → SE.addRec s = none)
    (hscope : ∀ s c l, SE.constant s = some c → SE.getSCEVAtScope s l = s) (hLI : LI.Natural M) (hM : M.Ids)
    {target : LoopId} (htarget : target < LI.loops.length) {a d : Nat} (h : AffineVariable LI M SE target a d)
    (w start stop : Nat) :
    SpansIterations LI M SE w a d start stop target ↔
    (∀ l < LI.loops.length, LI.Inner (LI.topLoop target) l → Counted LI M SE l) ∧
      2 ^ w ∣ start * d ∧ 2 ^ w ∣ stop * d := by
  obtain ⟨lba, hrun, htop, hentry⟩ := analyze_fresh SE hLI htarget
  obtain ⟨hs, ht⟩ := analyze_sound hLI hM LoopBounds.sound_empty htarget hrun
  have hdefined : (lba.evaluate LI SE start stop target).isSome ↔
      ∀ l < LI.loops.length, LI.Inner (LI.topLoop target) l → Counted LI M SE l := by
    rw [evaluate_isSome_iff hLI hs ht target]
    refine forall₃_congr fun l hl hin => ?_
    rw [hentry l hl hin.2, iterationSpace_isSome]
  constructor
  · rintro ⟨lba₁, lba', hrun₁, heval, ⟨b, c, hb, hc, hstart⟩, b', c', hb', hc', hstop⟩
    obtain rfl := Option.some.inj (hrun.symm.trans hrun₁)
    have hbound := evaluate_affine hexcl hscope hLI hM htarget h hrun heval
    obtain ⟨x, hx, hxa⟩ := hbound false
    obtain ⟨y, hy, hya⟩ := hbound true
    obtain rfl := Option.some.inj (hx.symm.trans hb)
    obtain rfl := Option.some.inj (hy.symm.trans hb')
    obtain rfl := Option.some.inj (hxa.symm.trans hc)
    obtain rfl := Option.some.inj (hya.symm.trans hc')
    exact ⟨hdefined.mp (Option.isSome_iff_exists.mpr ⟨lba', heval⟩), mod_eq_add_mod_iff.mp hstart,
      mod_eq_add_mod_iff.mp hstop⟩
  · rintro ⟨hcounted, hstart, hstop⟩
    obtain ⟨lba', heval⟩ := Option.isSome_iff_exists.mp (hdefined.mpr hcounted)
    have hbound := evaluate_affine hexcl hscope hLI hM htarget h hrun heval
    obtain ⟨x, hx, hxa⟩ := hbound false
    obtain ⟨y, hy, hya⟩ := hbound true
    exact ⟨lba, lba', hrun, heval, ⟨x, a, hx, hxa, mod_eq_add_mod_iff.mpr hstart⟩,
      y, a, hy, hya, mod_eq_add_mod_iff.mpr hstop⟩

end Target

section Slanted

theorem slantedNest_affineVariable : AffineVariable slantedLoops slantedNest (affineSE slantedPHIs) 0 0 1 :=
  ⟨_, _, rfl, rfl, rfl, rfl, rfl⟩

/- The outer loop counts from 0 to 5, and its end is still 0. -/
theorem slantedNest_stays :
    AffineVariable slantedLoops slantedNest (affineSE slantedPHIs) 0 0 1 ∧
    (∀ l < slantedLoops.loops.length, Counted slantedLoops slantedNest (affineSE slantedPHIs) l) ∧
    ¬ SpansIterations slantedLoops slantedNest (affineSE slantedPHIs) 32 0 1 0 5 0 := by
  have hcounted : ∀ l < slantedLoops.loops.length,
      (iterationSpace slantedLoops slantedNest (affineSE slantedPHIs) l).inductionVariable.isSome = true := by decide
  refine ⟨slantedNest_affineVariable, fun l hl => iterationSpace_isSome.mp (hcounted l hl), ?_⟩
  rintro ⟨lba, lba', hrun, heval, -, b, c, hb, hc, hstop⟩
  have hafter : ((LoopBounds.empty.analyze slantedLoops slantedNest (affineSE slantedPHIs) 0).bind fun lba =>
      (lba.evaluate slantedLoops (affineSE slantedPHIs) 0 5 0).map fun lba' => (lba'.loopBoundsMap.at 0).stop) =
        some (some (.constant 0)) := rfl
  rw [hrun, Option.bind_some, heval, Option.map_some, hb] at hafter
  cases hafter
  cases hc
  exact absurd hstop (by decide)

theorem spansIterations_iff_slantedNest :
    SpansIterations slantedLoops slantedNest (affineSE slantedPHIs) 32 0 1 0 5 0 ↔
    (∀ l < slantedLoops.loops.length, slantedLoops.Inner (slantedLoops.topLoop 0) l →
      Counted slantedLoops slantedNest (affineSE slantedPHIs) l) ∧ 2 ^ 32 ∣ 0 * 1 ∧ 2 ^ 32 ∣ 5 * 1 :=
  spansIterations_iff (affineSE_evaluates slantedLoops).exclusive (fun _ _ _ _ => rfl) slantedLoops_natural
    ⟨by decide, by decide, by decide, by decide⟩ (by decide) slantedNest_affineVariable 32 0 5

end Slanted

end Atrox
