import Atrox.Analysis.NestBounds
import Atrox.Lib.Recurrence

/-!
# Bounds around the target

`evaluate` peels one recurrence off a bound for each loop around that of the entry, and the last
one in the round of the loop itself. For the target and the loops around it nothing is left but a
constant.
-/

namespace Atrox
open IR Lib LoopInfo

section Reached
variable {S : Type} {LI : LoopInfo}

/- The state of an analyzer after any calls of `analyze` and `evaluate`. -/
inductive LoopBounds.Reached (LI : LoopInfo) : LoopBounds S → Prop
  | init : Reached LI .empty
  | analyze {lba lba' : LoopBounds S} {M : Module} {SE : ScalarEvolution S} {curL : LoopId} (h : Reached LI lba)
      (hM : M.Ids) (hL : curL < LI.loops.length) (hrun : lba.analyze LI M SE curL = some lba') : Reached LI lba'
  | evaluate {lba lba' : LoopBounds S} {SE : ScalarEvolution S} {start stop : Nat} {target : LoopId}
    (h : Reached LI lba)
      (hrun : lba.evaluate LI SE start stop target = some lba') : Reached LI lba'

theorem evaluate_sound {SE : ScalarEvolution S} {lba lba' : LoopBounds S} {start stop : Nat} {target : LoopId}
    (h : lba.Sound LI) (hrun : lba.evaluate LI SE start stop target = some lba') : lba'.Sound LI := by
  cases ht : lba.topL with
  | none =>
    rw [LoopBounds.evaluate, ht] at hrun
    cases hrun
    exact h
  | some t =>
    have hshape := evaluate_shape ht hrun
    rw [evaluate_eq ht] at hrun
    obtain ⟨m, -, rfl⟩ := Option.map_eq_some_iff.mp hrun
    exact ⟨h.top, fun e v he => h.nest e v (hshape.has.mp he), hshape.unique h.unique, hshape.bounded h.bounded⟩

theorem LoopBounds.Reached.sound {M : Module} (hLI : LI.Natural M) {lba : LoopBounds S} (h : lba.Reached LI) :
    lba.Sound LI := by
  induction h with
  | init => exact sound_empty
  | analyze _ hN hL hrun ih => exact (analyze_sound hLI hN ih hL hrun).1
  | evaluate _ hrun ih => exact evaluate_sound ih hrun

end Reached

section Rounds
variable {S : Type} {LI : LoopInfo} {SE : ScalarEvolution S} {start val : Nat}

/- The iteration number that a bound is evaluated at. -/
def iterationOf (start val : Nat) (isEnd : Bool) : Nat := if isEnd then val else start

/- The round of an outer loop, as an entry sees it. -/
theorem round_bound {m m₁ : BoundsMap S} {o : LoopId} {ls : List LoopId} (hnd : (o :: ls).Nodup)
    (h : (ls.takeWhile fun i => LI.depthOf o < LI.depthOf i).foldlM (evaluateInner SE start val)
      (evaluateOuter SE start val m o) = some m₁) (e : LoopId) (isEnd : Bool) :
    (m₁.at e).bound isEnd =
      if e = o then ((m.at e).bound isEnd).map (evaluateAddRec SE (iterationOf start val isEnd))
      else if e ∈ ls.takeWhile (fun i => LI.depthOf o < LI.depthOf i) then
        ((m.at e).bound isEnd).map (evaluateInScope SE (iterationOf start val isEnd) e)
      else (m.at e).bound isEnd := by
  obtain ⟨ho, hls⟩ := List.nodup_cons.mp hnd
  have hinner := evaluateInners_bound (hls.sublist (List.takeWhile_sublist _)) h e isEnd
  rw [evaluateOuter_bound] at hinner
  by_cases he : e = o
  · subst he
    have hnot : e ∉ ls.takeWhile fun i => LI.depthOf e < LI.depthOf i :=
      fun hin => ho ((List.takeWhile_prefix _).subset hin)
    rw [if_neg hnot, if_pos rfl] at hinner
    rw [if_pos rfl]
    exact hinner
  · rw [if_neg he] at hinner ⊢
    exact hinner

theorem evaluateNest_other {target e : LoopId} {ls : List LoopId} (hnd : ls.Nodup) (he : e ∉ ls) {m m' : BoundsMap S}
    (h : evaluateNest LI SE start val target ls m = some m') (isEnd : Bool) :
    (m'.at e).bound isEnd = (m.at e).bound isEnd := by
  induction ls generalizing m with
  | nil =>
    cases h
    rfl
  | cons o ls ih =>
    obtain ⟨hne, hels⟩ := List.ne_and_not_mem_of_not_mem_cons he
    obtain ⟨m₁, hm₁, h⟩ := Option.bind_eq_some_iff.mp h
    have hround := round_bound hnd hm₁ e isEnd
    rw [if_neg hne, if_neg fun hin => hels ((List.takeWhile_prefix _).subset hin)] at hround
    split at h
    · cases h
      exact hround
    · exact (ih (List.nodup_cons.mp hnd).2 hels h).trans hround

variable {M : Module} (hLI : LI.Natural M)
include hLI

/- The rounds up to the target look at the target, or a loop around it, once for each loop further out and
evaluate it in its own round. -/
theorem evaluateNest_around {target e : LoopId} (htarget : target < LI.loops.length) (he : e ∈ LI.enclosing target)
    {ls : List LoopId} (hpre : LI.Preorder ls) (hlt : ∀ l ∈ ls, l < LI.loops.length) (htls : target ∈ ls)
    (hels : e ∈ ls)
    {m m' : BoundsMap S} (h : evaluateNest LI SE start val target ls m = some m') (isEnd : Bool) :
    (m'.at e).bound isEnd = ((m.at e).bound isEnd).map fun s => evaluateAddRec SE (iterationOf start val isEnd)
      ((evaluateInScope SE (iterationOf start val isEnd) e)^[
        (ls.filter fun l => l ∈ (LI.enclosing e).tail).length] s) := by
  have helt := enclosing_lt hLI htarget he
  have hcons := enclosing_cons hLI helt
  induction ls generalizing m with
  | nil => exact absurd hels List.not_mem_nil
  | cons o ls ih =>
    have hnd := hpre.nodup hLI hlt
    obtain ⟨hnested, hlater, hrest⟩ := hpre
    have hlt' : ∀ l ∈ ls, l < LI.loops.length := fun l hl => hlt l (List.mem_cons_of_mem o hl)
    obtain ⟨m₁, hm₁, h⟩ := Option.bind_eq_some_iff.mp h
    have hround := round_bound hnd hm₁ e isEnd
    have hself : e ∉ (LI.enclosing e).tail := by
      have hnodup := enclosing_nodup hLI helt
      rw [hcons] at hnodup ⊢
      exact (List.nodup_cons.mp hnodup).1
    by_cases heo : e = o
    · subst heo
      -- its own round is the last one that it takes part in
      have hnil : ((e :: ls).filter fun l => l ∈ (LI.enclosing e).tail) = [] := by
        refine List.filter_eq_nil_iff.mpr fun x hx hin => ?_
        rw [decide_eq_true_eq] at hin
        rcases List.mem_cons.mp hx with rfl | hx
        · exact hself hin
        · exact hlater x hx (List.mem_of_mem_tail hin)
      have hstay : (m'.at e).bound isEnd = (m₁.at e).bound isEnd := by
        split at h
        · cases h
          rfl
        · exact evaluateNest_other (List.nodup_cons.mp hnd).2 (List.nodup_cons.mp hnd).1 h isEnd
      rw [hstay, hround, if_pos rfl, hnil]
      rfl
    · have hels' : e ∈ ls := (List.mem_cons.mp hels).resolve_left heo
      -- the target is nested in `e`, so it does not come before it
      have hto : target ≠ o := fun hto => hlater e hels' (hto ▸ he)
      rw [if_neg hto] at h
      rw [ih hrest hlt' ((List.mem_cons.mp htls).resolve_left hto) hels' h, hround, if_neg heo]
      simp only [hnested e, hels', true_and]
      by_cases ho : o ∈ LI.enclosing e
      · have htail : o ∈ (LI.enclosing e).tail := by
          rw [hcons] at ho ⊢
          exact (List.mem_cons.mp ho).resolve_left fun hoe => heo hoe.symm
        rw [if_pos ho, Option.map_map, List.filter_cons, if_pos (decide_eq_true htail), List.length_cons]
        rfl
      · have htail : o ∉ (LI.enclosing e).tail := fun hin => ho (List.mem_of_mem_tail hin)
        rw [if_neg ho, List.filter_cons, if_neg fun hc => htail (of_decide_eq_true hc)]

/- A bound of the target, or of a loop around it, is evaluated once for each loop around its own, its own
included. -/
theorem evaluate_around {lba lba' : LoopBounds S} (hs : lba.Sound LI) {t : LoopId} (ht : lba.topL = some t)
    {target e : LoopId} (htarget : target < LI.loops.length) (htt : t ∈ LI.enclosing target)
    (he : e ∈ LI.enclosing target)
    (h : lba.evaluate LI SE start val target = some lba') (isEnd : Bool) :
    (lba'.loopBoundsMap.at e).bound isEnd = ((lba.loopBoundsMap.at e).bound isEnd).map fun s =>
      evaluateAddRec SE (iterationOf start val isEnd)
        ((evaluateInScope SE (iterationOf start val isEnd) e)^[LI.depthOf e - 1] s) := by
  obtain ⟨htlt, htop⟩ := hs.top t ht
  have hwalk : ∀ m, m ∈ LI.reverseSiblingPreorder LI.loops.length t ↔ m < LI.loops.length ∧ t ∈ LI.enclosing m :=
    fun m => mem_reverseSiblingPreorder hLI htlt (Nat.le_add_left ..)
  have helt := enclosing_lt hLI htarget he
  have hte := top_around hLI htarget htt htop he
  rw [evaluate_eq ht, reverseSiblingPreorder_filter hLI htlt htop] at h
  obtain ⟨m', hm', rfl⟩ := Option.map_eq_some_iff.mp h
  have hrun := evaluateNest_around hLI htarget he (reverseSiblingPreorder_preorder hLI htlt (Nat.le_add_left ..))
    (fun l hl => ((hwalk l).mp hl).1) ((hwalk target).mpr ⟨htarget, htt⟩) ((hwalk e).mpr ⟨helt, hte⟩) hm' isEnd
  have hcount := length_filter_around hLI helt hte htop (List.Nodup.tail (enclosing_nodup hLI helt))
    fun m hm => List.mem_of_mem_tail hm
  rw [hcount, List.length_tail] at hrun
  exact hrun

end Rounds

section Constants
variable {S : Type} (LI : LoopInfo) (SE : ScalarEvolution S) (loopOf : S → LoopId) (width : S → Nat)

/- The affine recurrences among the expressions, each over the loop of its `getLoop`, with the widths of
their types. -/
def ScalarEvolution.recurrences : Recurrences S LoopId where
  constant := SE.constant
  addRec s := (SE.addRec s).bind fun r => if r.isAffine then some (r.start, r.step, loopOf s) else none
  width := width

/- `evaluateAtIteration` puts the number for the iteration of the recurrence's loop, and the result is such
an expression again; `getSCEVAtScope` leaves expressions over the loops around the scope alone. -/
structure EvaluatesRecurrences : Prop where
  exclusive : ∀ s c, SE.constant s = some c → SE.addRec s = none
  substitutes : ∀ l < LI.loops.length,
    (SE.recurrences loopOf width).Substitutes SE.evaluateAtIteration (LI.enclosing l)
  scope : ∀ l s, (SE.recurrences loopOf width).Over (LI.enclosing l) s → SE.getSCEVAtScope s l = s

/- The bound is evaluated to the constant that the stored one is with `n` for every iteration number. -/
def EvaluatedAt (n : Nat) (stored evaluated : Option S) : Prop :=
  ∃ a b c, stored = some a ∧ evaluated = some b ∧ SE.constant b = some c ∧
    (SE.recurrences loopOf width).Value (fun _ => n) a c

variable {LI SE loopOf width} (h : EvaluatesRecurrences LI SE loopOf width)
include h

theorem addRec_isSome {ls : List LoopId} {s : S} (hs : (SE.recurrences loopOf width).Over ls s) :
    (SE.addRec s).isSome = ((SE.recurrences loopOf width).addRec s).isSome := by
  cases hs with
  | @constant ls s c hc hno =>
    rw [hno, h.exclusive s c hc]
    rfl
  | addRec pre outer hrec =>
    obtain ⟨r, hr, -⟩ := Option.bind_eq_some_iff.mp hrec
    rw [hrec, hr]
    rfl

theorem evaluateAddRec_peel {ls : List LoopId} {s : S} (hs : (SE.recurrences loopOf width).Over ls s) (n : Nat) :
    evaluateAddRec SE n s = (SE.recurrences loopOf width).peel SE.evaluateAtIteration n s := by
  rw [evaluateAddRec, Recurrences.peel, addRec_isSome h hs]

theorem evaluateInScope_peel {l : LoopId} {s : S} (hs : (SE.recurrences loopOf width).Over (LI.enclosing l) s)
    (n : Nat) :
    evaluateInScope SE n l s = (SE.recurrences loopOf width).peel SE.evaluateAtIteration n s := by
  unfold evaluateInScope
  rw [h.scope l s hs, ← evaluateAddRec_peel h hs]
  rfl

/- Seen from the scope of its loop an expression gives way to its value each time. -/
theorem evaluateInScope_iterate {l : LoopId} (hl : l < LI.loops.length) {s : S}
    (hs : (SE.recurrences loopOf width).Over (LI.enclosing l) s) (n k : Nat) :
    (evaluateInScope SE n l)^[k] s = ((SE.recurrences loopOf width).peel SE.evaluateAtIteration n)^[k] s ∧
      (SE.recurrences loopOf width).Over (LI.enclosing l) ((evaluateInScope SE n l)^[k] s) := by
  obtain ⟨v, hv⟩ := hs.value fun _ => n
  have hover : ∀ k, (SE.recurrences loopOf width).Over (LI.enclosing l)
      (((SE.recurrences loopOf width).peel SE.evaluateAtIteration n)^[k] s) := fun k =>
    (Recurrences.iterate_peel (h.substitutes l hl) hs hv k).1.suffix (List.drop_suffix k _)
  have hiter : (evaluateInScope SE n l)^[k] s =
      ((SE.recurrences loopOf width).peel SE.evaluateAtIteration n)^[k] s := by
    induction k with
    | zero => rfl
    | succ k ih =>
      rw [Function.iterate_succ_apply', Function.iterate_succ_apply', ih, evaluateInScope_peel h (hover k)]
  exact ⟨hiter, hiter ▸ hover k⟩

/- All the evaluations of a bound take one loop away each. -/
theorem evaluations_constant {M : Module} (hLI : LI.Natural M) {l : LoopId} (hl : l < LI.loops.length) {s : S}
    (hs : (SE.recurrences loopOf width).Over (LI.enclosing l) s) (n : Nat) :
    ∃ c, SE.constant (evaluateAddRec SE n ((evaluateInScope SE n l)^[LI.depthOf l - 1] s)) = some c ∧
      (SE.recurrences loopOf width).Value (fun _ => n) s c := by
  obtain ⟨hiter, hover⟩ := evaluateInScope_iterate h hl hs n (LI.depthOf l - 1)
  have hdepth : LI.depthOf l - 1 + 1 = LI.depthOf l := by
    refine Nat.sub_add_cancel ?_
    rw [depthOf, enclosing_cons hLI hl]
    exact Nat.succ_le_succ (Nat.zero_le _)
  rw [evaluateAddRec_peel h hover, hiter, ← Function.iterate_succ_apply' ((SE.recurrences loopOf width).peel _ n),
    Nat.succ_eq_add_one, hdepth]
  exact Recurrences.iterate_constant (h.substitutes l hl) hs (Nat.le_refl _)

/- In a nest whose bounds are constants or recurrences over the loops around, `evaluate` makes those of the
target and of the loops around it constant. -/
theorem evaluate_maxBounds {M : Module} (hLI : LI.Natural M) {lba : LoopBounds S} (hr : lba.Reached LI) {t : LoopId}
    (ht : lba.topL = some t)
    (hvar : ∀ l < LI.loops.length, t ∈ LI.enclosing l → (lba.loopBoundsMap.at l).inductionVariable.isSome = true)
    (hstored : ∀ l < LI.loops.length, t ∈ LI.enclosing l → ∀ isEnd b, (lba.loopBoundsMap.at l).bound isEnd = some b →
      (SE.recurrences loopOf width).Over (LI.enclosing l) b)
    {target : LoopId} (htarget : target < LI.loops.length) (htt : t ∈ LI.enclosing target) (start stop : Nat) :
    ∃ lba', lba.evaluate LI SE start stop target = some lba' ∧ ∀ l ∈ LI.enclosing target,
      EvaluatedAt SE loopOf width start (lba.loopBoundsMap.at l).start (lba'.loopBoundsMap.at l).start ∧
      EvaluatedAt SE loopOf width stop (lba.loopBoundsMap.at l).stop (lba'.loopBoundsMap.at l).stop := by
  have hs := hr.sound hLI
  have hsome : (lba.evaluate LI SE start stop target).isSome :=
    (evaluate_isSome_iff hLI hs ht target).mpr fun l hl hin => hvar l hl hin.2
  obtain ⟨lba', hrun⟩ := Option.isSome_iff_exists.mp hsome
  refine ⟨lba', hrun, fun l hlt => ?_⟩
  have hl := enclosing_lt hLI htarget hlt
  have htl := top_around hLI htarget htt (hs.top t ht).2 hlt
  have hbound : ∀ isEnd, EvaluatedAt SE loopOf width (iterationOf start stop isEnd)
    ((lba.loopBoundsMap.at l).bound isEnd)
      ((lba'.loopBoundsMap.at l).bound isEnd) := by
    intro isEnd
    have hisSome : ((lba.loopBoundsMap.at l).bound isEnd).isSome = true := by
      obtain ⟨h1, h2⟩ := hs.bounded l
      cases isEnd
      · exact h1.trans (hvar l hl htl)
      · exact h2.trans (hvar l hl htl)
    obtain ⟨a, ha⟩ := Option.isSome_iff_exists.mp hisSome
    obtain ⟨c, hc, hval⟩ := evaluations_constant h hLI hl (hstored l hl htl isEnd a ha) (iterationOf start stop isEnd)
    refine ⟨a, _, c, ha, ?_, hc, hval⟩
    rw [evaluate_around hLI hs ht htarget htt hlt hrun isEnd, ha, Option.map_some]
  exact ⟨hbound false, hbound true⟩

end Constants

section Affine

/- Expressions of scalar evolution with constant steps. -/
inductive AffineSCEV where
  | constant (n : Nat)
  | addRec (start : AffineSCEV) (step : Nat) (loop : LoopId)

/- The sum with a constant, on 32 bits. -/
def AffineSCEV.plus (c : Nat) : AffineSCEV → AffineSCEV
  | .constant n => .constant ((n + c) % 2 ^ 32)
  | .addRec start step l => .addRec (start.plus c) step l

def AffineSCEV.loopOf : AffineSCEV → LoopId
  | .constant _ => 0
  | .addRec _ _ l => l

/- Scalar evolution with the expressions of the given PHIs. -/
def affineSE (phis : List (InstId × AffineSCEV)) : ScalarEvolution AffineSCEV where
  getSCEV v := match v with
    | .inst i _ => (phis.lookup i).getD (.constant 0)
    | _ => .constant 0
  addRec s := match s with
    | .addRec start step _ => some ⟨start, .constant step, true⟩
    | .constant _ => none
  constant s := match s with
    | .constant n => some n
    | .addRec _ _ _ => none
  evaluateAtIteration s n := match s with
    | .addRec start step _ => start.plus (step * n)
    | .constant c => .constant c
  getSCEVAtScope s _ := s
  getSmallConstantMaxTripCount _ := 0
  isCanonical _ _ := false

abbrev affineRecurrences (phis : List (InstId × AffineSCEV)) : Recurrences AffineSCEV LoopId :=
  (affineSE phis).recurrences AffineSCEV.loopOf fun _ => 32

/- The same, where not every number is the step of a recurrence. -/
def steppedSE (isStep : Nat → Bool) (phis : List (InstId × AffineSCEV)) : ScalarEvolution AffineSCEV :=
  { affineSE phis with
    addRec s := match s with
      | .addRec start step _ => if isStep step then some ⟨start, .constant step, true⟩ else none
      | .constant _ => none }

abbrev steppedRecurrences (isStep : Nat → Bool) (phis : List (InstId × AffineSCEV)) : Recurrences AffineSCEV LoopId :=
  (steppedSE isStep phis).recurrences AffineSCEV.loopOf fun _ => 32

variable {isStep : Nat → Bool} {phis : List (InstId × AffineSCEV)} {c : Nat}

theorem affineSE_eq : affineSE phis = steppedSE (fun _ => true) phis := rfl

theorem stepped_addRec_eq (start : AffineSCEV) (step : Nat) (l : LoopId) :
    (steppedRecurrences isStep phis).addRec (.addRec start step l) =
      if isStep step then some (start, .constant step, l) else none := by
  unfold steppedRecurrences ScalarEvolution.recurrences steppedSE
  dsimp only
  cases isStep step <;> rfl

theorem stepped_addRec {s a b : AffineSCEV} {l : LoopId} :
    (steppedRecurrences isStep phis).addRec s = some (a, b, l) ↔
      ∃ step, isStep step = true ∧ s = .addRec a step l ∧ b = .constant step := by
  constructor
  · intro h
    cases s with
    | constant => exact nomatch h
    | addRec start step loop =>
      rw [stepped_addRec_eq] at h
      split at h
      · next hstep =>
        cases h
        exact ⟨step, hstep, rfl, rfl⟩
      · cases h
  · rintro ⟨step, hstep, rfl, rfl⟩
    rw [stepped_addRec_eq, if_pos hstep]

theorem plus_over {ls : List LoopId} {s : AffineSCEV} (h : (steppedRecurrences isStep phis).Over ls s) :
    (steppedRecurrences isStep phis).Over ls (s.plus c) := by
  induction h with
  | @constant ls s n hc hs =>
    cases s with
    | constant => exact .constant rfl rfl
    | addRec => exact nomatch hc
  | addRec pre outer hs ha hb iha _ =>
    obtain ⟨step, hstep, rfl, rfl⟩ := stepped_addRec.mp hs
    exact .addRec pre outer (stepped_addRec.mpr ⟨step, hstep, rfl, rfl⟩) iha hb

theorem plus_value {ρ : LoopId → Nat} {s : AffineSCEV} {v : Nat} (h : (steppedRecurrences isStep phis).Value ρ s v) :
    (steppedRecurrences isStep phis).Value ρ (s.plus c) ((v + c) % 2 ^ 32) := by
  induction h with
  | @constant s n hc hs =>
    cases s with
    | constant =>
      cases hc
      exact .constant rfl rfl
    | addRec => exact nomatch hc
  | @addRec s a b l x y hs ha hb iha _ =>
    obtain ⟨step, hstep, rfl, rfl⟩ := stepped_addRec.mp hs
    have hsum := Recurrences.Value.addRec (R := steppedRecurrences isStep phis)
      (s := (AffineSCEV.addRec a step l).plus c) (stepped_addRec.mpr ⟨step, hstep, rfl, rfl⟩) iha hb
    have hnum : ((x + c) % 2 ^ 32 + y * ρ l) % 2 ^ 32 = ((x + y * ρ l) % 2 ^ 32 + c) % 2 ^ 32 := by
      rw [Nat.mod_add_mod, Nat.mod_add_mod, Nat.add_right_comm]
    exact hnum ▸ hsum

theorem steppedSE_evaluates (LI : LoopInfo) :
    EvaluatesRecurrences LI (steppedSE isStep phis) AffineSCEV.loopOf fun _ => 32 := by
  refine ⟨fun s n hn => ?_, fun m _ s a b l n pre outer _ hs ha hb => ?_, fun _ _ _ => rfl⟩
  · cases s with
    | constant => rfl
    | addRec => exact nomatch hn
  · obtain ⟨step, -, rfl, rfl⟩ := stepped_addRec.mp hs
    refine ⟨plus_over ha, fun ρ x y hx hy => ?_⟩
    obtain rfl : y = step := hy.unique (.constant rfl rfl)
    exact plus_value hx

theorem affineSE_evaluates (LI : LoopInfo) :
    EvaluatesRecurrences LI (affineSE phis) AffineSCEV.loopOf fun _ => 32 := by
  rw [affineSE_eq]
  exact steppedSE_evaluates LI

/- `for (i = 0; ; ) for (j = i; ; )`, both tested at the bottom. -/
def slantedNest : Module where
  funcs := [{ id := 9, params := [⟨"n", .int 32⟩], isVarArg := false, blocks :=
    [⟨0, [Inst.uncondBr 30 1], false⟩,
     ⟨1, [⟨10, .phi, .int 32, [.const (.int 32 0), .inst 12 (.int 32)], [0, 3], []⟩, Inst.uncondBr 31 2], false⟩,
     ⟨2, [⟨11, .phi, .int 32, [.inst 10 (.int 32), .inst 13 (.int 32)], [1, 2], []⟩,
          ⟨13, .add, .int 32, [.inst 11 (.int 32), .const (.int 32 1)], [], []⟩,
          ⟨15, .other 0, .int 1, [.inst 13 (.int 32), .arg 9 0 (.int 32)], [], []⟩,
          ⟨32, .br, .void, [.inst 15 (.int 1)], [], [2, 3]⟩], false⟩,
     ⟨3, [⟨12, .add, .int 32, [.inst 10 (.int 32), .const (.int 32 1)], [], []⟩,
          ⟨14, .other 0, .int 1, [.inst 12 (.int 32), .arg 9 0 (.int 32)], [], []⟩,
          ⟨33, .br, .void, [.inst 14 (.int 1)], [], [1, 4]⟩], false⟩,
     ⟨4, [⟨34, .ret, .void, [], [], []⟩], false⟩] }]
  nextId := 40
  valueName := fun _ => ""
  initUsesBlockAddress := fun _ => false

def slantedLoops : LoopInfo where
  loops := [⟨1, [1, 2, 3], none⟩, ⟨2, [2], some 0⟩]
  bbMap := fun b => [(1, 0), (3, 0), (2, 1)].lookup b

theorem slantedLoops_natural : slantedLoops.Natural slantedNest :=
  LoopInfo.natural_of_lookup (by decide) (by decide) (by decide) (by decide) (by decide) (by decide)

/- The PHIs of the nest: `{0,+,1}` over the outer loop, and a recurrence over the inner one that starts there. -/
def slantedPHIs : List (InstId × AffineSCEV) :=
  [(10, .addRec (.constant 0) 1 0), (11, .addRec (.addRec (.constant 0) 1 0) 1 1)]

/- The analyzer of the nest. -/
def slantedBounds : LoopBounds AffineSCEV :=
  (LoopBounds.empty.analyze slantedLoops slantedNest (affineSE slantedPHIs) 1).getD .empty

theorem slantedBounds_eq :
    LoopBounds.empty.analyze slantedLoops slantedNest (affineSE slantedPHIs) 1 = some slantedBounds := rfl

/- What it has stored: the inner loop starts where the outer one is. -/
theorem slantedBounds_stored {l : LoopId} (hl : l < slantedLoops.loops.length) {isEnd : Bool} {b : AffineSCEV}
    (hb : (slantedBounds.loopBoundsMap.at l).bound isEnd = some b) :
    (affineRecurrences slantedPHIs).Over (slantedLoops.enclosing l) b := by
  have hcases : l = 0 ∨ l = 1 := Nat.le_one_iff_eq_zero_or_eq_one.mp (Nat.le_of_lt_succ hl)
  rcases hcases with rfl | rfl
  · have hconst : (slantedBounds.loopBoundsMap.at 0).bound isEnd = some (.constant 0) := by cases isEnd <;> rfl
    obtain rfl := Option.some.inj (hb.symm.trans hconst)
    exact .constant rfl rfl
  · have hrec : (slantedBounds.loopBoundsMap.at 1).bound isEnd = some (.addRec (.constant 0) 1 0) := by
      cases isEnd <;> rfl
    obtain rfl := Option.some.inj (hb.symm.trans hrec)
    exact .addRec [1] [] rfl (.constant rfl rfl) (.constant rfl rfl)

theorem evaluate_maxBounds_slantedNest :
    ∃ lba', slantedBounds.evaluate slantedLoops (affineSE slantedPHIs) 3 5 1 = some lba' ∧
    ∀ l ∈ slantedLoops.enclosing 1,
      EvaluatedAt (affineSE slantedPHIs) AffineSCEV.loopOf (fun _ => 32) 3 (slantedBounds.loopBoundsMap.at l).start
        (lba'.loopBoundsMap.at l).start ∧
      EvaluatedAt (affineSE slantedPHIs) AffineSCEV.loopOf (fun _ => 32) 5 (slantedBounds.loopBoundsMap.at l).stop
        (lba'.loopBoundsMap.at l).stop :=
  evaluate_maxBounds (affineSE_evaluates slantedLoops) slantedLoops_natural
    (.analyze .init ⟨by decide, by decide, by decide, by decide⟩ (by decide) slantedBounds_eq) rfl
    (by decide) (fun l hl _ isEnd b hb => slantedBounds_stored hl hb) (by decide) (by decide) 3 5

/- `j` starts at 3 in iteration 3, and at 5 in iteration 5. -/
example : ((slantedBounds.evaluate slantedLoops (affineSE slantedPHIs) 3 5 1).map fun lba =>
    ((lba.loopBoundsMap.at 1).start.bind (affineSE slantedPHIs).constant,
      (lba.loopBoundsMap.at 1).stop.bind (affineSE slantedPHIs).constant)) = some (some 3, some 5) := by decide

end Affine

end Atrox
