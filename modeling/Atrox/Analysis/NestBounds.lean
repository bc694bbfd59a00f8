import Mathlib.Logic.Function.Iterate
import Atrox.Analysis.LoopBounds

/-!
# The map of a nest

What calls of `analyze` leave in the map, and what `evaluate` makes of it: the induction variables
stay, and the start of each loop below the target is evaluated once for each loop around it.
-/

namespace Atrox
open IR Lib LoopInfo

section Map
variable {S : Type}

theorem at_insert (m : BoundsMap S) (l e : LoopId) (info : LoopIterationSpace S) :
    BoundsMap.at (m.insert l info) e = if e = l then info else m.at e := by
  unfold BoundsMap.at
  split
  · next he => rw [he, AList.lookup_insert, Option.getD_some]
  · next hne => rw [AList.lookup_insert_ne hne]

/- The value is entered as the induction variable of the loop. -/
def BoundsMap.Has (m : BoundsMap S) (e : LoopId) (v : Value) : Prop := (m.at e).inductionVariable = some v

/- No two loops share an induction variable. -/
def BoundsMap.Unique (m : BoundsMap S) : Prop := ∀ e e' v, m.Has e v → m.Has e' v → e = e'

/- A loop has bounds when it has an induction variable. -/
def BoundsMap.Bounded (m : BoundsMap S) : Prop :=
  ∀ e, (m.at e).start.isSome = (m.at e).inductionVariable.isSome ∧
    (m.at e).stop.isSome = (m.at e).inductionVariable.isSome

theorem mem_entries_of_has {m : BoundsMap S} {e : LoopId} {v : Value} (h : m.Has e v) : ⟨e, m.at e⟩ ∈ m.entries := by
  unfold BoundsMap.Has BoundsMap.at at h
  unfold BoundsMap.at
  cases hl : m.lookup e with
  | none =>
    rw [hl] at h
    exact absurd h (by simp [LoopIterationSpace.empty])
  | some info => exact AList.mem_lookup_iff.mp hl

theorem at_of_mem {m : BoundsMap S} {e : LoopId} {info : LoopIterationSpace S} (h : ⟨e, info⟩ ∈ m.entries) :
    m.at e = info := by
  have hl : m.lookup e = some info := AList.mem_lookup_iff.mpr h
  rw [BoundsMap.at, hl, Option.getD_some]

/- The loops over the map stop at the one entry of the induction variable. -/
theorem find_iff {m : BoundsMap S} (hm : m.Unique) {v : Value} {e : LoopId} {info : LoopIterationSpace S} :
    m.find v = some (e, info) ↔ m.Has e v ∧ info = m.at e := by
  constructor
  · intro h
    obtain ⟨x, hx, he⟩ := Option.map_eq_some_iff.mp h
    cases he
    have hat := at_of_mem (List.mem_of_find?_eq_some hx)
    have hv := List.find?_some hx
    rw [decide_eq_true_eq, ← hat] at hv
    exact ⟨hv, hat.symm⟩
  · rintro ⟨hv, rfl⟩
    have hmem := mem_entries_of_has hv
    have hsome : (m.entries.find? fun e => e.2.inductionVariable = some v).isSome :=
      List.find?_isSome.mpr ⟨_, hmem, decide_eq_true hv⟩
    obtain ⟨x, hx⟩ := Option.isSome_iff_exists.mp hsome
    have hat := at_of_mem (List.mem_of_find?_eq_some hx)
    have hxv := List.find?_some hx
    rw [decide_eq_true_eq, ← hat] at hxv
    obtain rfl : e = x.1 := hm e x.1 v hv hxv
    rw [BoundsMap.find, hx, Option.map_some, ← hat]

theorem find_any_iff {m : BoundsMap S} (hm : m.Unique) (v : Value) (p : LoopId → Bool) :
    ((m.find v).any fun e => p e.1) = true ↔ ∃ e, m.Has e v ∧ p e = true := by
  rw [Option.any_eq_true]
  constructor
  · rintro ⟨x, hx, hp⟩
    exact ⟨x.1, ((find_iff hm).mp hx).1, hp⟩
  · rintro ⟨e, hv, hp⟩
    exact ⟨(e, m.at e), (find_iff hm).mpr ⟨hv, rfl⟩, hp⟩

end Map

section Analyze
variable {S : Type} {LI : LoopInfo} {M : Module} {SE : ScalarEvolution S}

theorem firstAddRec_mem {phis : List Inst} {phi : Inst} (h : firstAddRec SE phis = some phi) : phi ∈ phis := by
  induction phis with
  | nil => cases h
  | cons x phis ih =>
    unfold firstAddRec at h
    split at h
    · cases h
    · split at h
      · exact List.mem_cons_of_mem x (ih h)
      · split at h
        · cases h
          exact List.mem_cons_self ..
        · exact List.mem_cons_of_mem x (ih h)

/- An induction variable is a PHI of the header. -/
theorem getInductionVariable_mem {l : LoopId} {phi : Inst} (h : getInductionVariable LI M SE l = some phi) :
    ∃ b ∈ M.blocks, LI.headerOf l = some b.id ∧ phi ∈ b.insts := by
  unfold getInductionVariable at h
  split at h
  · cases h
  · next b hb =>
    obtain ⟨id, hid, hblk⟩ := Option.bind_eq_some_iff.mp hb
    have hb' : b ∈ M.blocks := List.mem_of_find?_eq_some hblk
    have hbid : b.id = id := by simpa using List.find?_some hblk
    have hphi : phi ∈ b.phis := by
      split at h
      · next x hx =>
        cases h
        exact List.mem_of_find?_eq_some hx
      · split at h
        · cases h
        · exact firstAddRec_mem h
    exact ⟨b, hb', hbid ▸ hid, (List.takeWhile_prefix _).subset hphi⟩

theorem iterationSpace_variable {l : LoopId} {v : Value} (h : (iterationSpace LI M SE l).inductionVariable = some v) :
    ∃ b ∈ M.blocks, LI.headerOf l = some b.id ∧ ∃ phi ∈ b.insts, v = phi.val := by
  unfold iterationSpace at h
  split at h
  · cases h
  · next phi hphi =>
    obtain ⟨b, hb, hid, hmem⟩ := getInductionVariable_mem hphi
    split at h
    · cases h
    · exact ⟨b, hb, hid, phi, hmem, (Option.some.inj h).symm⟩

theorem iterationSpace_bounded (l : LoopId) :
    (iterationSpace LI M SE l).start.isSome = (iterationSpace LI M SE l).inductionVariable.isSome ∧
    (iterationSpace LI M SE l).stop.isSome = (iterationSpace LI M SE l).inductionVariable.isSome := by
  unfold iterationSpace
  split
  · exact ⟨rfl, rfl⟩
  · split <;> exact ⟨rfl, rfl⟩

/- The map after the loop over the nest. -/
theorem foldl_insert_at {g : LoopId → LoopIterationSpace S} (ls : List LoopId) (e : LoopId) :
    BoundsMap.at (ls.foldl (fun m l => m.insert l (g l)) ∅) e = if e ∈ ls then g e else .empty := by
  refine foldl_run (P := fun pre m => BoundsMap.at m e = if e ∈ pre then g e else .empty) ls ?_ rfl
  intro pre l post m _ hm
  rw [at_insert, hm]
  by_cases he : e = l
  · subst he
    simp
  · simp [he]

/- The loops above a loop are those it is nested in. -/
theorem isOuterLoopOf_iff (hLI : LI.Natural M) {o l : LoopId} (hl : l < LI.loops.length) :
    isOuterLoopOf LI o l = true ↔ LI.Inner o l := by
  have hnd := enclosing_nodup hLI hl
  have hcons := enclosing_cons hLI hl
  unfold isOuterLoopOf LoopInfo.Inner
  rw [hcons] at hnd ⊢
  rw [decide_eq_true_eq, List.tail_cons, List.mem_cons]
  constructor
  · exact fun h => ⟨fun he => (List.nodup_cons.mp hnd).1 (he ▸ h), .inr h⟩
  · exact fun h => h.2.resolve_left fun he => h.1 he.symm

/- The state of an analyzer after any number of calls of `analyze`, between which the module and the
answers of scalar evolution may change. -/
inductive LoopBounds.Analyzed (LI : LoopInfo) : LoopBounds S → Prop
  | init : Analyzed LI .empty
  | analyze {lba lba' : LoopBounds S} {M : Module} {SE : ScalarEvolution S} {curL : LoopId} (h : Analyzed LI lba)
      (hM : M.Ids) (hL : curL < LI.loops.length) (hrun : lba.analyze LI M SE curL = some lba') : Analyzed LI lba'

structure LoopBounds.Sound (LI : LoopInfo) (lba : LoopBounds S) : Prop where
  top : ∀ t, lba.topL = some t → t < LI.loops.length ∧ LI.parentOf t = none
  nest : ∀ e v, lba.loopBoundsMap.Has e v → ∃ t, lba.topL = some t ∧ e < LI.loops.length ∧ t ∈ LI.enclosing e
  unique : lba.loopBoundsMap.Unique
  bounded : lba.loopBoundsMap.Bounded

theorem LoopBounds.sound_empty : (LoopBounds.empty : LoopBounds S).Sound LI where
  top := fun _ h => by cases h
  nest := fun _ _ h => by cases h
  unique := fun _ _ _ h => by cases h
  bounded := fun _ => ⟨rfl, rfl⟩

variable (hLI : LI.Natural M)
include hLI

/- Two headers are two blocks, so no PHI is in both. -/
theorem iterationSpace_unique {N : Module} (hN : N.Ids) {e e' : LoopId} {v : Value}
    (h : (iterationSpace LI N SE e).inductionVariable = some v)
    (h' : (iterationSpace LI N SE e').inductionVariable = some v) : e = e' := by
  obtain ⟨b, hb, hid, phi, hphi, rfl⟩ := iterationSpace_variable h
  obtain ⟨b', hb', hid', phi', hphi', hv⟩ := iterationSpace_variable h'
  have hsame : phi = phi' := inst_unique hN (List.mem_flatMap.mpr ⟨b, hb, hphi⟩)
    (List.mem_flatMap.mpr ⟨b', hb', hphi'⟩) (Value.inst.inj hv).1
  obtain rfl := block_unique hN hb hb' hphi (hsame ▸ hphi')
  have hbb := hLI.header e b.id hid
  rw [hLI.header e' b.id hid'] at hbb
  exact (Option.some.inj hbb).symm

theorem analyze_sound {N : Module} (hN : N.Ids) {lba lba' : LoopBounds S} (h : lba.Sound LI) {curL : LoopId}
    (hL : curL < LI.loops.length) (hrun : lba.analyze LI N SE curL = some lba') :
    lba'.Sound LI ∧ lba'.topL = some (LI.topLoop curL) := by
  unfold LoopBounds.analyze at hrun
  split at hrun
  case isFalse => cases hrun
  dsimp only at hrun
  split at hrun
  · next htop =>
    cases hrun
    exact ⟨h, htop⟩
  · cases hrun
    obtain ⟨hmem, htop⟩ := topLoop_spec hLI hL
    have ht := enclosing_lt hLI hL hmem
    refine ⟨⟨?_, ?_, ?_, ?_⟩, rfl⟩
    · intro t he
      cases he
      exact ⟨ht, htop⟩
    · intro e v he
      unfold BoundsMap.Has at he
      dsimp only at he
      rw [foldl_insert_at] at he
      split at he
      · next hin =>
        obtain ⟨hlt, hc⟩ := List.mem_filter.mp hin
        rw [getLoopsInPreorder, List.mem_range] at hlt
        exact ⟨_, rfl, hlt, (containsHeader_iff hLI ht hlt).mp hc⟩
      · cases he
    · intro e e' v he he'
      unfold BoundsMap.Has at he he'
      dsimp only at he he'
      rw [foldl_insert_at] at he he'
      split at he
      · split at he'
        · exact iterationSpace_unique hLI hN he he'
        · cases he'
      · cases he
    · intro e
      dsimp only
      rw [foldl_insert_at]
      split
      · exact iterationSpace_bounded e
      · exact ⟨rfl, rfl⟩

theorem LoopBounds.Analyzed.sound {lba : LoopBounds S} (h : lba.Analyzed LI) : lba.Sound LI := by
  induction h with
  | init => exact sound_empty
  | analyze _ hN hL hrun ih => exact (analyze_sound hLI hN ih hL hrun).1

end Analyze

section Evaluate
variable {S : Type} {LI : LoopInfo} {SE : ScalarEvolution S} {start val : Nat}

/- The same loops have induction variables and bounds, and the induction variables are the same. -/
def SameShape (m m' : BoundsMap S) : Prop :=
  ∀ e, (m'.at e).inductionVariable = (m.at e).inductionVariable ∧
    (m'.at e).start.isSome = (m.at e).start.isSome ∧ (m'.at e).stop.isSome = (m.at e).stop.isSome

theorem SameShape.refl (m : BoundsMap S) : SameShape m m := fun _ => ⟨rfl, rfl, rfl⟩

theorem SameShape.trans {m₁ m₂ m₃ : BoundsMap S} (h : SameShape m₁ m₂) (h' : SameShape m₂ m₃) : SameShape m₁ m₃ :=
  fun e => ⟨(h' e).1.trans (h e).1, (h' e).2.1.trans (h e).2.1, (h' e).2.2.trans (h e).2.2⟩

theorem SameShape.bounded {m m' : BoundsMap S} (h : SameShape m m') (hm : m.Bounded) : m'.Bounded := by
  intro e
  obtain ⟨hv, h1, h2⟩ := h e
  obtain ⟨hb1, hb2⟩ := hm e
  rw [hv, h1, h2]
  exact ⟨hb1, hb2⟩

theorem SameShape.has {m m' : BoundsMap S} (h : SameShape m m') {e : LoopId} {v : Value} : m'.Has e v ↔ m.Has e v := by
  unfold BoundsMap.Has
  rw [(h e).1]

theorem SameShape.unique {m m' : BoundsMap S} (h : SameShape m m') (hm : m.Unique) : m'.Unique :=
  fun e e' v he he' => hm e e' v (h.has.mp he) (h.has.mp he')

theorem evaluateOuter_shape (m : BoundsMap S) (o : LoopId) : SameShape m (evaluateOuter SE start val m o) := by
  intro e
  rw [evaluateOuter, at_insert]
  split
  · next he =>
    subst he
    exact ⟨rfl, Option.isSome_map, Option.isSome_map⟩
  · exact ⟨rfl, rfl, rfl⟩

theorem evaluateInner_eq {m m' : BoundsMap S} {i : LoopId} (h : evaluateInner SE start val m i = some m') :
    ∃ s t, (m.at i).start = some s ∧ (m.at i).stop = some t ∧ m' = m.insert i { m.at i with
      start := some (evaluateInScope SE start i s), stop := some (evaluateInScope SE val i t) } := by
  obtain ⟨s, hs, h⟩ := Option.bind_eq_some_iff.mp h
  obtain ⟨t, ht, h⟩ := Option.bind_eq_some_iff.mp h
  exact ⟨s, t, hs, ht, (Option.some.inj h).symm⟩

theorem evaluateInner_isSome {m : BoundsMap S} (hm : m.Bounded) (i : LoopId) :
    (evaluateInner SE start val m i).isSome ↔ (m.at i).inductionVariable.isSome := by
  obtain ⟨h1, h2⟩ := hm i
  rw [← h1] at h2 ⊢
  unfold evaluateInner
  dsimp only
  cases hs : (m.at i).start with
  | none => rfl
  | some s =>
    rw [hs] at h2
    obtain ⟨t, ht⟩ := Option.isSome_iff_exists.mp h2
    rw [ht]
    rfl

theorem evaluateInner_shape {m m' : BoundsMap S} {i : LoopId} (h : evaluateInner SE start val m i = some m') :
    SameShape m m' := by
  obtain ⟨s, t, hs, ht, rfl⟩ := evaluateInner_eq h
  intro e
  rw [at_insert]
  split
  · next he =>
    subst he
    exact ⟨rfl, by rw [hs]; rfl, by rw [ht]; rfl⟩
  · exact ⟨rfl, rfl, rfl⟩

theorem evaluateInners_shape {m m' : BoundsMap S} {is : List LoopId}
    (h : is.foldlM (evaluateInner SE start val) m = some m') : SameShape m m' :=
  foldlM_preserves (P := SameShape m) is (fun _ _ _ _ hs hi => hs.trans (evaluateInner_shape hi)) (SameShape.refl m) h

theorem evaluateInners_isSome {m : BoundsMap S} (hm : m.Bounded) (is : List LoopId) :
    (is.foldlM (evaluateInner SE start val) m).isSome ↔ ∀ i ∈ is, (m.at i).inductionVariable.isSome := by
  refine foldlM_isSome_iff (P := SameShape m) is ?_ (fun _ _ _ _ hs hi => hs.trans (evaluateInner_shape hi))
    (SameShape.refl m)
  intro i s _ hs
  rw [evaluateInner_isSome (hs.bounded hm), (hs i).1]

/- The start of an entry, or its end. -/
def LoopIterationSpace.bound (info : LoopIterationSpace S) (isEnd : Bool) : Option S :=
  if isEnd then info.stop else info.start

theorem evaluateOuter_bound (m : BoundsMap S) (o e : LoopId) (isEnd : Bool) :
    ((evaluateOuter SE start val m o).at e).bound isEnd = if e = o then
      ((m.at e).bound isEnd).map (evaluateAddRec SE (if isEnd then val else start)) else (m.at e).bound isEnd := by
  rw [evaluateOuter, at_insert]
  split
  · next he =>
    subst he
    cases isEnd <;> rfl
  · rfl

/- Each loop of the list is looked at from its scope once. -/
theorem evaluateInners_bound {m m' : BoundsMap S} {is : List LoopId} (hnd : is.Nodup)
    (h : is.foldlM (evaluateInner SE start val) m = some m') (e : LoopId) (isEnd : Bool) :
    (m'.at e).bound isEnd = if e ∈ is then
      ((m.at e).bound isEnd).map (evaluateInScope SE (if isEnd then val else start) e) else (m.at e).bound isEnd := by
  refine foldlM_run (P := fun pre m' => (m'.at e).bound isEnd = if e ∈ pre then
    ((m.at e).bound isEnd).map (evaluateInScope SE (if isEnd then val else start) e) else (m.at e).bound isEnd) is ?_ rfl h
  intro pre i post t t' hsplit ht hi
  obtain ⟨s, s', hs, hs', rfl⟩ := evaluateInner_eq hi
  rw [at_insert]
  by_cases he : e = i
  · subst he
    have hpre : e ∉ pre := by
      rw [hsplit] at hnd
      exact fun hp => (List.nodup_append.mp hnd).2.2 e hp e (List.mem_cons_self ..) rfl
    rw [if_neg hpre] at ht
    rw [if_pos rfl, if_pos (List.mem_append_right pre (List.mem_cons_self ..)), ← ht]
    cases isEnd with
    | false =>
      have hold : (t.at e).bound false = some s := hs
      rw [hold]
      rfl
    | true =>
      have hold : (t.at e).bound true = some s' := hs'
      rw [hold]
      rfl
  · simp [he, ht]

theorem evaluateInners_start {m m' : BoundsMap S} {is : List LoopId} (hnd : is.Nodup)
    (h : is.foldlM (evaluateInner SE start val) m = some m') (e : LoopId) :
    (m'.at e).start = if e ∈ is then (m.at e).start.map (evaluateInScope SE start e) else (m.at e).start :=
  evaluateInners_bound hnd h e false

theorem evaluateNest_shape {target : LoopId} {ls : List LoopId} {m m' : BoundsMap S}
    (h : evaluateNest LI SE start val target ls m = some m') : SameShape m m' := by
  induction ls generalizing m with
  | nil =>
    cases h
    exact SameShape.refl _
  | cons o ls ih =>
    obtain ⟨m₁, hm₁, h⟩ := Option.bind_eq_some_iff.mp h
    have h₁ := (evaluateOuter_shape m o).trans (evaluateInners_shape hm₁)
    split at h
    · cases h
      exact h₁
    · exact h₁.trans (ih h)

/- Nothing fails when the loops behind the first have induction variables. -/
theorem evaluateNest_isSome {target : LoopId} {ls : List LoopId} {m : BoundsMap S} (hm : m.Bounded)
    (hv : ∀ e ∈ ls.tail, (m.at e).inductionVariable.isSome) : (evaluateNest LI SE start val target ls m).isSome := by
  induction ls generalizing m with
  | nil => rfl
  | cons o ls ih =>
    have hshape : SameShape m (evaluateOuter SE start val m o) := evaluateOuter_shape m o
    have hinner : ((ls.takeWhile fun e => LI.depthOf o < LI.depthOf e).foldlM (evaluateInner SE start val)
        (evaluateOuter SE start val m o)).isSome := by
      refine (evaluateInners_isSome (hshape.bounded hm) _).mpr fun e he => ?_
      rw [(hshape e).1]
      exact hv e ((List.takeWhile_prefix _).subset he)
    obtain ⟨m₁, hm₁⟩ := Option.isSome_iff_exists.mp hinner
    have h₁ := hshape.trans (evaluateInners_shape hm₁)
    unfold evaluateNest
    dsimp only
    rw [hm₁, Option.bind_eq_bind, Option.bind_some]
    split
    · rfl
    · refine ih (h₁.bounded hm) fun e he => ?_
      rw [(h₁ e).1]
      exact hv e (List.mem_of_mem_tail he)

/- The round of the first loop looks at all the others when they are nested in it. -/
theorem variable_of_evaluateNest {target o : LoopId} {ls : List LoopId} {m : BoundsMap S} (hm : m.Bounded)
    (hdeep : ∀ e ∈ ls, LI.depthOf o < LI.depthOf e)
    (h : (evaluateNest LI SE start val target (o :: ls) m).isSome) : ∀ e ∈ ls, (m.at e).inductionVariable.isSome := by
  obtain ⟨m', h⟩ := Option.isSome_iff_exists.mp h
  obtain ⟨m₁, hm₁, -⟩ := Option.bind_eq_some_iff.mp h
  have hshape : SameShape m (evaluateOuter SE start val m o) := evaluateOuter_shape m o
  rw [List.takeWhile_eq_self_iff.mpr fun e he => decide_eq_true (hdeep e he)] at hm₁
  intro e he
  have hall := (evaluateInners_isSome (hshape.bounded hm) ls).mp (Option.isSome_iff_exists.mpr ⟨m₁, hm₁⟩) e he
  rwa [(hshape e).1] at hall

variable {M : Module} (hLI : LI.Natural M)
include hLI

/- The rounds up to the target look at a loop below the target once for each loop around the target. -/
theorem evaluateNest_start {target e : LoopId} (he : e < LI.loops.length) (hin : LI.Inner target e)
    {ls : List LoopId} (hpre : LI.Preorder ls) (hlt : ∀ l ∈ ls, l < LI.loops.length) (htarget : target ∈ ls) (hmem : e ∈ ls)
    {m m' : BoundsMap S} (h : evaluateNest LI SE start val target ls m = some m') :
    (m'.at e).start =
      (m.at e).start.map ((evaluateInScope SE start e)^[(ls.filter fun l => l ∈ LI.enclosing target).length]) := by
  induction ls generalizing m with
  | nil => exact absurd hmem List.not_mem_nil
  | cons o ls ih =>
    have hnd := (hpre.nodup hLI hlt)
    obtain ⟨hnested, hlater, hrest⟩ := hpre
    have hlt' : ∀ l ∈ ls, l < LI.loops.length := fun l hl => hlt l (List.mem_cons_of_mem o hl)
    obtain ⟨m₁, hm₁, h⟩ := Option.bind_eq_some_iff.mp h
    have hnd' := (List.nodup_cons.mp hnd).2.sublist (List.takeWhile_sublist fun m => LI.depthOf o < LI.depthOf m)
    have htarlt := enclosing_lt hLI he hin.2
    -- the target stands before the loops nested in it
    have hne : e ≠ o := by
      intro heo
      rcases List.mem_cons.mp htarget with hto | hto
      · exact hin.1 (heo.trans hto.symm)
      · exact hlater target hto (heo ▸ hin.2)
    have hels : e ∈ ls := (List.mem_cons.mp hmem).resolve_left hne
    have hround : (m₁.at e).start =
        if o ∈ LI.enclosing e then (m.at e).start.map (evaluateInScope SE start e) else (m.at e).start := by
      rw [evaluateInners_start hnd' hm₁ e, evaluateOuter, at_insert, if_neg hne]
      simp only [hnested e, hels, true_and]
    split at h
    · next hto =>
      cases h
      subst hto
      have hnil : (ls.filter fun l => l ∈ LI.enclosing target) = [] :=
        List.filter_eq_nil_iff.mpr fun x hx => by simpa using hlater x hx
      rw [List.filter_cons, if_pos (decide_eq_true (self_enclosing hLI htarlt)), hnil, hround, if_pos hin.2]
      rfl
    · next hto =>
      have htls : target ∈ ls := (List.mem_cons.mp htarget).resolve_left hto
      rw [ih hrest hlt' htls hels h, hround]
      by_cases ho : o ∈ LI.enclosing target
      · rw [if_pos (enclosing_trans hLI he hin.2 ho), Option.map_map, List.filter_cons, if_pos (decide_eq_true ho),
          List.length_cons, Function.iterate_succ]
      · have hoe : o ∉ LI.enclosing e := fun hoe =>
          (enclosing_total hLI he hoe hin.2).elim ho (hlater target htls)
        rw [if_neg hoe, List.filter_cons, if_neg (fun hc => ho (of_decide_eq_true hc))]

variable {lba : LoopBounds S} (hs : lba.Sound LI) {t : LoopId} (ht : lba.topL = some t)
include hs ht

omit hLI hs in
theorem evaluate_eq (target : LoopId) : lba.evaluate LI SE start val target =
    (evaluateNest LI SE start val target (LI.getLoopsInReverseSiblingPreorder.filter (LI.containsHeader t))
      lba.loopBoundsMap).map fun m => { lba with loopBoundsMap := m } := by
  rw [LoopBounds.evaluate, ht]

omit hLI hs in
theorem evaluate_shape {target : LoopId} {lba' : LoopBounds S} (h : lba.evaluate LI SE start val target = some lba') :
    SameShape lba.loopBoundsMap lba'.loopBoundsMap := by
  rw [evaluate_eq ht] at h
  obtain ⟨m', hm', rfl⟩ := Option.map_eq_some_iff.mp h
  exact evaluateNest_shape hm'

/- `evaluate` needs an induction variable of every loop of the nest but the outermost one. -/
theorem evaluate_isSome_iff (target : LoopId) : (lba.evaluate LI SE start val target).isSome ↔
    ∀ e < LI.loops.length, LI.Inner t e → (lba.loopBoundsMap.at e).inductionVariable.isSome := by
  obtain ⟨htlt, htop⟩ := hs.top t ht
  have hwalk : ∀ m, m ∈ LI.reverseSiblingPreorder LI.loops.length t ↔ m < LI.loops.length ∧ t ∈ LI.enclosing m :=
    fun m => mem_reverseSiblingPreorder hLI htlt (Nat.le_add_left ..)
  have hpre := reverseSiblingPreorder_preorder hLI htlt (Nat.le_add_left LI.loops.length t)
  have hnd := hpre.nodup hLI fun m hm => ((hwalk m).mp hm).1
  obtain ⟨ls, hls⟩ : ∃ ls, LI.reverseSiblingPreorder LI.loops.length t = t :: ls := by
    obtain ⟨n, hn⟩ := Nat.exists_eq_succ_of_ne_zero (Nat.ne_zero_of_lt htlt)
    rw [hn]
    exact ⟨_, rfl⟩
  rw [hls] at hnd hwalk
  have hmem : ∀ e, e ∈ ls ↔ e < LI.loops.length ∧ LI.Inner t e := by
    intro e
    constructor
    · intro he
      obtain ⟨hlt, hin⟩ := (hwalk e).mp (List.mem_cons_of_mem t he)
      exact ⟨hlt, fun het => (List.nodup_cons.mp hnd).1 (het ▸ he), hin⟩
    · intro ⟨hlt, hne, hin⟩
      exact (List.mem_cons.mp ((hwalk e).mpr ⟨hlt, hin⟩)).resolve_left hne
  rw [evaluate_eq ht, Option.isSome_map, reverseSiblingPreorder_filter hLI htlt htop, hls]
  constructor
  · intro h e he hin
    refine variable_of_evaluateNest hs.bounded (fun l hl => ?_) h e ((hmem e).mpr ⟨he, hin⟩)
    obtain ⟨hl, hlin⟩ := (hmem l).mp hl
    exact depth_lt hLI hl hlin
  · intro h
    refine evaluateNest_isSome hs.bounded fun e he => ?_
    obtain ⟨hlt, hin⟩ := (hmem e).mp he
    exact h e hlt hin

/- The start of a loop below the target is taken to the scope of its loop and evaluated there, once for
each loop around the target. -/
theorem evaluate_start {target e : LoopId} (he : e < LI.loops.length) (htarget : t ∈ LI.enclosing target)
    (hin : LI.Inner target e) {lba' : LoopBounds S} (h : lba.evaluate LI SE start val target = some lba') :
    (lba'.loopBoundsMap.at e).start =
      (lba.loopBoundsMap.at e).start.map ((evaluateInScope SE start e)^[LI.depthOf target]) := by
  obtain ⟨htlt, htop⟩ := hs.top t ht
  have hwalk : ∀ m, m ∈ LI.reverseSiblingPreorder LI.loops.length t ↔ m < LI.loops.length ∧ t ∈ LI.enclosing m :=
    fun m => mem_reverseSiblingPreorder hLI htlt (Nat.le_add_left ..)
  have htarlt := enclosing_lt hLI he hin.2
  rw [evaluate_eq ht, reverseSiblingPreorder_filter hLI htlt htop] at h
  obtain ⟨m', hm', rfl⟩ := Option.map_eq_some_iff.mp h
  have hrun := evaluateNest_start hLI he hin (reverseSiblingPreorder_preorder hLI htlt (Nat.le_add_left ..))
    (fun l hl => ((hwalk l).mp hl).1) ((hwalk target).mpr ⟨htarlt, htarget⟩)
    ((hwalk e).mpr ⟨he, enclosing_trans hLI he hin.2 htarget⟩) hm'
  rwa [length_filter_enclosing hLI htarlt htarget htop] at hrun

end Evaluate

end Atrox
