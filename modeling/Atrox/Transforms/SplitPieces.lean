import Atrox.Transforms.BlockSeparatorPass

/-!
# The pieces of a block

What the points of `findInBlock` cut a block into: a front that keeps the number
of the block and, for each point, the instructions from there to the next one.
-/

namespace Atrox
open IR

/- A point with the instructions it starts. -/
abbrev Segment := ModeChangePoint × List Inst

def concat (rest : List Segment) : List Inst := (rest.map Prod.snd).flatten

@[simp] theorem concat_nil : concat [] = [] := rfl

@[simp] theorem concat_cons (p : Segment) (rest : List Segment) : concat (p :: rest) = p.2 ++ concat rest := rfl

theorem concat_append (ps qs : List Segment) : concat (ps ++ qs) = concat ps ++ concat qs := by
  simp only [concat, List.map_append, List.flatten_append]

theorem invertMode_of_ne {m m' : Mode} (h : m ≠ m') : invertMode m' = m := by
  cases m <;> cases m' <;> first | rfl | exact absurd rfl h

theorem invertMode_ne (m : Mode) : invertMode m ≠ m := by
  cases m <;> exact fun h => nomatch h

section Runs
variable (info : IteratorInfo)

/- The stretches a scan runs through before and after each change of mode. -/
def runs (m : Mode) : List Inst → List Inst × List Segment
  | [] => ([], [])
  | i :: is =>
    if m ≠ getMode info i ∧ i.isUncondBr = false then
      let r := runs (getMode info i) is
      ([], ((i.id, getMode info i), i :: r.1) :: r.2)
    else
      let r := runs m is
      (i :: r.1, r.2)

theorem runs_concat (m : Mode) (is : List Inst) : (runs info m is).1 ++ concat (runs info m is).2 = is := by
  induction is generalizing m with
  | nil => rfl
  | cons i is ih =>
    simp only [runs]
    split
    · rw [List.nil_append, concat_cons, List.cons_append, ih]
    · rw [List.cons_append, ih]

theorem runs_points (m : Mode) (is : List Inst) : (runs info m is).2.map Prod.fst = changePoints info m is := by
  induction is generalizing m with
  | nil => rfl
  | cons i is ih =>
    simp only [runs, changePoints]
    split
    · rw [List.map_cons, ih]
    · exact ih m

/- Up to the first change the instructions have the mode the scan started with. -/
theorem runs_first (m : Mode) (is : List Inst) :
    ∀ i ∈ (runs info m is).1, i.isUncondBr = false → getMode info i = m := by
  induction is generalizing m with
  | nil => exact fun i hi => absurd hi List.not_mem_nil
  | cons x xs ih =>
    intro i hi hbr
    simp only [runs] at hi
    split at hi
    · exact absurd hi List.not_mem_nil
    · next hx =>
      rcases List.mem_cons.mp hi with rfl | hi
      · by_contra hne
        exact hx ⟨fun he => hne he.symm, hbr⟩
      · exact ih m i hi hbr

theorem runs_modes (m : Mode) (is : List Inst) :
    ∀ q ∈ (runs info m is).2, ∀ i ∈ q.2, i.isUncondBr = false → getMode info i = q.1.2 := by
  induction is generalizing m with
  | nil => exact fun q hq => absurd hq List.not_mem_nil
  | cons x xs ih =>
    intro q hq i hi hbr
    simp only [runs] at hq
    split at hq
    · rcases List.mem_cons.mp hq with rfl | hq
      · rcases List.mem_cons.mp hi with rfl | hi
        · rfl
        · exact runs_first info _ _ i hi hbr
      · exact ih _ q hq i hi hbr
    · exact ih _ q hq i hi hbr

/- Each later stretch starts with the instruction of its point. -/
theorem runs_heads (m : Mode) (is : List Inst) :
    ∀ q ∈ (runs info m is).2, ∃ i ys, q.2 = i :: ys ∧ i ∈ is ∧ q.1 = (i.id, getMode info i) := by
  induction is generalizing m with
  | nil => exact fun q hq => absurd hq List.not_mem_nil
  | cons x xs ih =>
    intro q hq
    have htail : ∀ m, q ∈ (runs info m xs).2 → ∃ i ys, q.2 = i :: ys ∧ i ∈ x :: xs ∧ q.1 = (i.id, getMode info i) := by
      intro m hq
      obtain ⟨i, ys, h1, h2, h3⟩ := ih m q hq
      exact ⟨i, ys, h1, List.mem_cons_of_mem _ h2, h3⟩
    simp only [runs] at hq
    split at hq
    · rcases List.mem_cons.mp hq with rfl | hq
      · exact ⟨x, _, rfl, List.mem_cons_self .., rfl⟩
      · exact htail _ hq
    · exact htail _ hq

/- The first point found is of the other mode. -/
theorem runs_head_mode (m : Mode) (is : List Inst) {q : Segment} {qs : List Segment}
    (h : (runs info m is).2 = q :: qs) : invertMode q.1.2 = m := by
  induction is generalizing m with
  | nil => exact absurd h (fun he => nomatch he)
  | cons x xs ih =>
    simp only [runs] at h
    split at h
    · next hx =>
      obtain ⟨rfl, -⟩ := List.cons.inj h
      exact invertMode_of_ne hx.1
    · exact ih m h

/- A cut of the pieces lies behind `xs`. -/
def CutBehind (first : List Inst) (rest : List Segment) (xs : List Inst) : Prop :=
  ∃ pre q post, rest = pre ++ q :: post ∧ first ++ concat pre = xs

/- A scan cuts where the mode differs from the one before. -/
theorem runs_cut (m : Mode) (xs : List Inst) (i : Inst) (ys : List Inst)
    (hxs : ∀ x ∈ xs, x.isUncondBr = false) :
    CutBehind (runs info m (xs ++ i :: ys)).1 (runs info m (xs ++ i :: ys)).2 xs ↔
      (xs.getLast?.map (getMode info)).getD m ≠ getMode info i ∧ i.isUncondBr = false := by
  induction xs generalizing m with
  | nil =>
    simp only [List.nil_append, runs, List.getLast?_nil, Option.map_none, Option.getD_none]
    split
    · next hi =>
      refine ⟨fun _ => hi, fun _ => ?_⟩
      exact ⟨[], _, _, rfl, rfl⟩
    · next hi =>
      refine ⟨?_, fun h => absurd h hi⟩
      rintro ⟨pre, q, post, -, he⟩
      exact absurd he (by simp)
  | cons x xs ih =>
    have hx := hxs x (List.mem_cons_self ..)
    have hlast : ((x :: xs).getLast?.map (getMode info)).getD m =
        (xs.getLast?.map (getMode info)).getD (getMode info x) := by
      cases xs with
      | nil => rfl
      | cons y ys => rw [List.getLast?_cons_cons, List.getLast?_cons]; rfl
    have ih' := ih (getMode info x) fun y hy => hxs y (List.mem_cons_of_mem _ hy)
    rw [hlast, ← ih', List.cons_append]
    simp only [runs]
    split
    · -- `x` starts a stretch of its own
      constructor
      · rintro ⟨pre, q, post, hsplit, he⟩
        cases pre with
        | nil => exact absurd he (by simp)
        | cons p pre =>
          obtain ⟨rfl, hrest⟩ := List.cons.inj hsplit
          have he' := (List.cons.inj he).2
          exact ⟨pre, q, post, hrest, he'⟩
      · rintro ⟨pre, q, post, hsplit, he⟩
        exact ⟨((x.id, getMode info x), x :: (runs info (getMode info x) (xs ++ i :: ys)).1) :: pre, q, post,
          by rw [hsplit]; rfl, by rw [List.nil_append, concat_cons, List.cons_append, he]⟩
    · next hno =>
      have hm : getMode info x = m := by
        by_contra hne
        exact hno ⟨fun h => hne h.symm, hx⟩
      rw [hm]
      constructor
      · rintro ⟨pre, q, post, hsplit, he⟩
        exact ⟨pre, q, post, hsplit, (List.cons.inj he).2⟩
      · rintro ⟨pre, q, post, hsplit, he⟩
        exact ⟨pre, q, post, hsplit, by rw [List.cons_append, he]⟩

end Runs

section Cuts

/- `SplitBlock` at the instruction `pt` cuts between `xs` and `zs`: in front of an
ordinary instruction, or behind the EH pad it names. -/
def CutsAt (pt : InstId) (xs zs : List Inst) : Prop :=
  (∃ i ys, zs = i :: ys ∧ i.id = pt ∧ i.isPHI = false ∧ i.op.isEHPad = false) ∨
  (∃ ws e, xs = ws ++ [e] ∧ e.id = pt ∧ e.op.isEHPad = true ∧
    ∀ i, zs.head? = some i → i.isPHI = false ∧ i.op.isEHPad = false)

theorem CutsAt.append {pt : InstId} {xs zs : List Inst} (h : CutsAt pt xs zs) {br : Inst}
    (hbr : br.isPHI = false) (hpad : br.op.isEHPad = false) : CutsAt pt xs (zs ++ [br]) := by
  rcases h with ⟨i, ys, rfl, h1, h2, h3⟩ | ⟨ws, e, h1, h2, h3, h4⟩
  · exact .inl ⟨i, ys ++ [br], rfl, h1, h2, h3⟩
  · refine .inr ⟨ws, e, h1, h2, h3, fun i hi => ?_⟩
    cases zs with
    | nil =>
      obtain rfl := Option.some.inj hi
      exact ⟨hbr, hpad⟩
    | cons z zs => exact h4 i hi

theorem findIdx_at {is ws vs : List Inst} {e : Inst} (hi : is = ws ++ e :: vs) (hnd : (is.map Inst.id).Nodup) :
    is.findIdx (fun x => x.id = e.id) = ws.length := by
  rw [hi, List.map_append, List.map_cons, List.nodup_append] at hnd
  rw [hi, List.findIdx_append, List.findIdx_eq_length_of_false]
  · simp [List.findIdx_cons]
  · intro x hx
    have hne := hnd.2.2 x.id (List.mem_map_of_mem hx) e.id (List.mem_cons_self ..)
    simpa using hne

theorem splitIndex_cutsAt {b : Block} {xs zs : List Inst} {pt : InstId} (hi : b.insts = xs ++ zs)
    (hnd : (b.insts.map Inst.id).Nodup) (h : CutsAt pt xs zs) : b.splitIndex pt = xs.length := by
  rcases h with ⟨i, ys, rfl, rfl, hphi, hpad⟩ | ⟨ws, e, rfl, rfl, hpad, hhead⟩
  · exact splitIndex_eq hi hnd hphi hpad
  · have hi' : b.insts = ws ++ e :: zs := by rw [hi, List.append_assoc]; rfl
    simp only [Block.splitIndex, findIdx_at hi' hnd]
    rw [hi', List.drop_left]
    have hz : zs.takeWhile (fun i => i.isPHI || i.op.isEHPad) = [] := by
      cases zs with
      | nil => rfl
      | cons z zs =>
        obtain ⟨h1, h2⟩ := hhead z rfl
        simp [h1, h2]
    simp [hpad, hz]

/- PHI edges do not matter to where a split cuts. -/
theorem splitIndex_core {b c : Block} (h : b.insts.map Inst.core = c.insts.map Inst.core) (pt : InstId) :
    b.splitIndex pt = c.splitIndex pt := by
  have key : ∀ x : Block, x.splitIndex pt =
      let k := (x.insts.map Inst.core).findIdx fun i => i.id = pt
      k + (((x.insts.map Inst.core).drop k).takeWhile fun i => i.isPHI || i.op.isEHPad).length := by
    intro x
    simp only [Block.splitIndex, List.findIdx_map, Function.comp_def, core_id, ← List.map_drop,
      List.takeWhile_map, List.length_map, core_isPHI, core_op]
    rfl
  rw [key b, key c, h]

end Cuts

section Shape

/- PHIs, then at most one EH pad, then the other instructions; no terminator but the last instruction. -/
structure IR.Block.Layout (b : Block) : Prop where
  phis : PhisFirst b.insts
  pads : ∀ i ∈ b.insts.drop (firstInsertionPt b), i.op.isEHPad = false
  terminator : ∀ i ∈ b.insts.dropLast, i.op.isTerminator = false

instance (b : Block) : Decidable b.Layout :=
  decidable_of_iff (PhisFirst b.insts ∧ (∀ i ∈ b.insts.drop (firstInsertionPt b), i.op.isEHPad = false) ∧
    ∀ i ∈ b.insts.dropLast, i.op.isTerminator = false) ⟨fun h => ⟨h.1, h.2.1, h.2.2⟩, fun h => ⟨h.1, h.2, h.3⟩⟩

/- A block that `FindPartitionPoints` goes through. -/
structure IR.Block.Shape (b : Block) : Prop extends b.Layout where
  insertionPt : b.HasInsertionPt

/- PHIs and EH pad. -/
def front (b : Block) : List Inst := b.insts.take (firstInsertionPt b)

def behind (b : Block) : List Inst := b.insts.drop (firstInsertionPt b)

theorem front_behind (b : Block) : front b ++ behind b = b.insts := List.take_append_drop ..

/- The PHIs and the EH pad of the block have one mode. -/
def frontAgrees (info : IteratorInfo) (b : Block) : Bool :=
  (front b).all fun i => getMode info i = headMode info b.insts

/- The front is the PHIs, with or without a pad behind them. -/
theorem front_cases (b : Block) : (front b = b.phis ∧ firstInsertionPt b = b.firstNonPHI) ∨
    ∃ e, front b = b.phis ++ [e] ∧ e.op.isEHPad = true ∧ firstInsertionPt b = b.firstNonPHI + 1 := by
  have htake : b.insts.take b.firstNonPHI = b.phis := by
    rw [Block.firstNonPHI, Block.phis]
    exact List.prefix_iff_eq_take.mp (List.takeWhile_prefix _) |>.symm
  unfold front firstInsertionPt
  dsimp only
  split
  · next i hi =>
    split
    · next hpad =>
      refine .inr ⟨i, ?_, hpad, rfl⟩
      rw [List.take_add_one, htake, hi]
      rfl
    · exact .inl ⟨htake, rfl⟩
  · exact .inl ⟨htake, rfl⟩

theorem behind_phis {b : Block} (h : PhisFirst b.insts) : ∀ i ∈ behind b, i.isPHI = false := by
  have hle : b.firstNonPHI ≤ firstInsertionPt b := by
    rcases front_cases b with ⟨-, h⟩ | ⟨e, -, -, h⟩ <;> omega
  obtain ⟨ps, rest, hi, hps, hrest⟩ := h
  have hphis : b.firstNonPHI = ps.length := by rw [Block.firstNonPHI, Block.phis, hi, takeWhile_phis hps hrest]
  intro i hm
  have hm' : i ∈ b.insts.drop ps.length := hphis ▸ List.drop_subset_drop_left _ hle hm
  rw [hi, List.drop_left] at hm'
  exact hrest i hm'

theorem phis_isPHI {b : Block} : ∀ p ∈ b.phis, p.isPHI = true := List.all_eq_true.mp List.all_takeWhile

/- An instruction that is neither PHI nor EH pad stands behind them. -/
theorem hasInsertionPt_of_mem {b : Block} {i : Inst} (hi : i ∈ b.insts) (hphi : i.isPHI = false)
    (hpad : i.op.isEHPad = false) : b.HasInsertionPt := by
  have hphis : i ∉ b.phis := fun hm => by
    rw [phis_isPHI i hm] at hphi
    cases hphi
  rw [← front_behind b] at hi
  rcases List.mem_append.mp hi with hi | hi
  · rcases front_cases b with ⟨he, -⟩ | ⟨e, he, hepad, -⟩
    · exact absurd (he ▸ hi) hphis
    · rcases List.mem_append.mp (he ▸ hi) with hi | hi
      · exact absurd hi hphis
      · rw [List.mem_singleton.mp hi, hepad] at hpad
        cases hpad
  · have hlen := List.length_pos_of_mem hi
    rw [behind, List.length_drop] at hlen
    exact Nat.lt_of_sub_pos hlen

theorem hasInsertionPt_iff {b : Block} (hphis : PhisFirst b.insts) (hpads : ∀ i ∈ b.insts, i.op.isEHPad = false) :
    b.HasInsertionPt ↔ ∃ i ∈ b.insts, i.isPHI = false := by
  constructor
  · intro h
    have hm : b.insts[firstInsertionPt b] ∈ behind b := by
      rw [behind, ← List.getElem_cons_drop h]
      exact List.mem_cons_self ..
    exact ⟨_, List.getElem_mem h, behind_phis hphis _ hm⟩
  · intro ⟨i, hi, hphi⟩
    exact hasInsertionPt_of_mem hi hphi (hpads i hi)

theorem hasInsertionPt_of_terminator {b : Block} {t : Inst} (ht : t ∈ b.insts) (hterm : t.op.isTerminator = true)
    (hpad : t.op.isEHPad = false) : b.HasInsertionPt := by
  refine hasInsertionPt_of_mem ht ?_ hpad
  cases hp : t.op <;> simp [Inst.isPHI, hp, Opcode.isTerminator] at hterm ⊢

theorem IR.Block.Shape.behind_cons {b : Block} (h : b.Shape) : ∃ i is, behind b = i :: is ∧ i.isPHI = false ∧
    i.op.isEHPad = false := by
  cases hb : behind b with
  | nil =>
    have hlen := congrArg List.length hb
    rw [behind, List.length_drop, List.length_nil] at hlen
    exact absurd h.insertionPt (Nat.not_lt.mpr (Nat.le_of_sub_eq_zero hlen))
  | cons i is =>
    have hm : i ∈ behind b := hb ▸ List.mem_cons_self ..
    exact ⟨i, is, rfl, behind_phis h.phis i hm, h.pads i hm⟩

/- What stands in front of another instruction is no branch. -/
theorem IR.Block.Shape.not_uncondBr {b : Block} (h : b.Shape) {xs ys : List Inst} {i : Inst}
    (hi : b.insts = xs ++ i :: ys) : ∀ x ∈ xs, x.isUncondBr = false := by
  intro x hx
  have hlast : x ∈ b.insts.dropLast := by
    rw [hi, List.dropLast_append_of_ne_nil (List.cons_ne_nil i ys)]
    exact List.mem_append_left _ hx
  have hterm := h.terminator x hlast
  by_contra hbr
  simp only [Inst.isUncondBr, Bool.not_eq_false, Bool.and_eq_true, decide_eq_true_eq] at hbr
  rw [hbr.1] at hterm
  cases hterm

end Shape

section Segments
variable (info : IteratorInfo)

/- The pieces of a block: the scan goes through a front of one mode, stops at a pad
that differs from the PHIs, or starts behind PHIs that differ. -/
inductive Segments (b : Block) : List Inst → List Segment → Prop where
  | agree (r : List Inst × List Segment) : frontAgrees info b = true →
      r = runs info (headMode info b.insts) (behind b) → Segments b (front b ++ r.1) r.2
  | pad (e : Inst) (r : List Inst × List Segment) : phisAgree info b = true → front b = b.phis ++ [e] →
      e.op.isEHPad = true → headMode info b.insts ≠ getMode info e → r = runs info (getMode info e) (behind b) →
      Segments b (front b) (((e.id, getMode info e), r.1) :: r.2)
  | mixed (i : Inst) (is : List Inst) (r : List Inst × List Segment) : phisAgree info b = false →
      behind b = i :: is → r = runs info (getMode info i) (behind b) →
      Segments b (front b) (((i.id, invertMode (getMode info i)), r.1) :: r.2)

theorem phisAgree_of_front {b : Block} (h : frontAgrees info b = true) : phisAgree info b = true := by
  refine List.all_eq_true.mpr fun p hp => ?_
  refine List.all_eq_true.mp h p ?_
  rcases front_cases b with ⟨he, -⟩ | ⟨e, he, -, -⟩
  · exact he ▸ hp
  · exact he ▸ List.mem_append_left _ hp

theorem segments_exist {b : Block} (hb : b.Shape) : ∃ first rest, Segments info b first rest := by
  by_cases hf : frontAgrees info b = true
  · exact ⟨_, _, .agree _ hf rfl⟩
  · by_cases hp : phisAgree info b = true
    · rcases front_cases b with ⟨he, -⟩ | ⟨e, he, hpad, -⟩
      · exact absurd (by rw [frontAgrees, he]; exact hp) hf
      · refine ⟨_, _, .pad e _ hp he hpad (fun hm => hf ?_) rfl⟩
        rw [frontAgrees, he, List.all_append, Bool.and_eq_true]
        exact ⟨hp, by simp [hm]⟩
    · obtain ⟨i, is, hi, -, -⟩ := hb.behind_cons
      exact ⟨_, _, .mixed i is _ (Bool.eq_false_iff.mpr hp) hi rfl⟩

theorem not_uncondBr_of_pad {e : Inst} (h : e.op.isEHPad = true) : e.isUncondBr = false := by
  by_contra hbr
  simp only [Inst.isUncondBr, Bool.not_eq_false, Bool.and_eq_true, decide_eq_true_eq] at hbr
  rw [hbr.1] at h
  cases h

variable {info}

theorem Segments.points {b : Block} {first : List Inst} {rest : List Segment} (h : Segments info b first rest) :
    blockPoints info b = rest.map Prod.fst := by
  cases h with
  | agree r hf hr =>
    have hmode : ∀ i ∈ front b, getMode info i = headMode info b.insts := fun i hi => by
      simpa using List.all_eq_true.mp hf i hi
    have hscan : changePoints info (headMode info b.insts) (front b ++ behind b) =
        changePoints info (headMode info b.insts) (behind b) := by
      rw [changePoints_append, changePoints_of_mode info hmode]
      rfl
    rw [front_behind] at hscan
    simp only [blockPoints, phisAgree_of_front info hf, if_true, List.nil_append]
    rw [hscan, hr, runs_points]
  | pad e r hp he hpad hne hr =>
    have hmode : ∀ i ∈ b.phis, getMode info i = headMode info b.insts := fun i hi => by
      simpa using List.all_eq_true.mp hp i hi
    have hscan : changePoints info (headMode info b.insts) (front b ++ behind b) =
        (e.id, getMode info e) :: changePoints info (getMode info e) (behind b) := by
      rw [he, List.append_assoc, changePoints_append, changePoints_of_mode info hmode,
        List.nil_append, List.singleton_append, changePoints]
      exact if_pos ⟨hne, not_uncondBr_of_pad hpad⟩
    rw [front_behind] at hscan
    simp only [blockPoints, hp, if_true, List.nil_append]
    rw [hscan, hr, List.map_cons, runs_points]
  | mixed i is r hp hi hr =>
    simp only [blockPoints, hp, Bool.false_eq_true, if_false]
    have hb : b.insts.drop (firstInsertionPt b) = i :: is := hi
    rw [hb, hr, List.map_cons, runs_points, hi]
    rfl

theorem Segments.concat {b : Block} {first : List Inst} {rest : List Segment} (h : Segments info b first rest) :
    first ++ concat rest = b.insts := by
  cases h with
  | agree r hf hr => rw [hr, List.append_assoc, runs_concat, front_behind]
  | pad e r hp he hpad hne hr => rw [concat_cons, hr, runs_concat, front_behind]
  | mixed i is r hp hi hr => rw [concat_cons, hr, runs_concat, front_behind]

/- Each point is where `SplitBlock` cuts its piece off. -/
theorem Segments.cutsAt {b : Block} (hb : b.Shape) {first : List Inst} {rest : List Segment}
    (h : Segments info b first rest) {pre : List Segment} {q : Segment} {post : List Segment}
    (hsplit : rest = pre ++ q :: post) : CutsAt q.1.1 (first ++ Atrox.concat pre) q.2 := by
  have hrun : ∀ m, q ∈ (runs info m (behind b)).2 → CutsAt q.1.1 (first ++ Atrox.concat pre) q.2 := by
    intro m hq
    obtain ⟨i, ys, h1, h2, h3⟩ := runs_heads info m (behind b) q hq
    exact .inl ⟨i, ys, h1, by rw [h3], behind_phis hb.phis i h2, hb.pads i h2⟩
  have hmem : q ∈ rest := hsplit ▸ List.mem_append_right _ (List.mem_cons_self ..)
  cases h with
  | agree r hf hr => exact hrun _ (hr ▸ hmem)
  | pad e r hp he hpad hne hr =>
    cases pre with
    | cons p pre =>
      refine hrun (getMode info e) ?_
      rw [← hr, (List.cons.inj hsplit).2]
      exact List.mem_append_right _ (List.mem_cons_self ..)
    | nil =>
      obtain ⟨rfl, -⟩ := List.cons.inj hsplit
      refine .inr ⟨b.phis, e, by rw [concat_nil, List.append_nil, he], rfl, hpad, fun i hi => ?_⟩
      have hm : i ∈ behind b := by
        rw [← runs_concat info (getMode info e) (behind b), ← hr]
        exact List.mem_append_left _ (List.mem_of_head? hi)
      exact ⟨behind_phis hb.phis i hm, hb.pads i hm⟩
  | mixed i is r hp hi hr =>
    cases pre with
    | cons p pre =>
      refine hrun (getMode info i) ?_
      rw [← hr, (List.cons.inj hsplit).2]
      exact List.mem_append_right _ (List.mem_cons_self ..)
    | nil =>
      obtain ⟨rfl, -⟩ := List.cons.inj hsplit
      have hm : i ∈ behind b := hi ▸ List.mem_cons_self ..
      refine .inl ⟨i, (runs info (getMode info i) is).1, ?_, rfl, behind_phis hb.phis i hm, hb.pads i hm⟩
      rw [hr, hi]
      simp only [runs, ne_eq, not_true_eq_false, false_and, if_false]

/- Where the scan of a block starts. -/
def scanned (info : IteratorInfo) (b : Block) : List Inst :=
  if phisAgree info b then b.insts else behind b

/- Label of the block that keeps the number: the last mode seen when nothing
changed, else the inverse of the mode of the first point. -/
def frontLabel (info : IteratorInfo) (b : Block) : Mode :=
  if (changePoints info (headMode info (scanned info b)) (scanned info b)).isEmpty then
    headMode info (scanned info b)
  else ((blockPoints info b).head?.map fun p => invertMode p.2).getD (headMode info (scanned info b))

theorem frontLabel_agree {b : Block} (hf : frontAgrees info b = true) {first : List Inst} {rest : List Segment}
    (h : Segments info b first rest) : frontLabel info b = headMode info b.insts := by
  have hp := phisAgree_of_front info hf
  have hs : scanned info b = b.insts := by rw [scanned, if_pos hp]
  have hpts : blockPoints info b = changePoints info (headMode info b.insts) b.insts := by
    simp only [blockPoints, hp, if_true, List.nil_append]
  rw [frontLabel, hs, ← hpts, h.points]
  cases rest with
  | nil => rfl
  | cons q qs =>
    simp only [List.map_cons, List.isEmpty_cons, Bool.false_eq_true, if_false, List.head?_cons,
      Option.map_some, Option.getD_some]
    generalize hqs : q :: qs = rest at h
    cases h with
    | agree r _ hr => exact runs_head_mode info _ _ (hr ▸ hqs.symm)
    | pad e r hp' he hpad hne hr =>
      obtain ⟨rfl, -⟩ := List.cons.inj hqs
      exact invertMode_of_ne hne
    | mixed i is r hp' hi hr => exact absurd hp (by simp [hp'])

theorem frontLabel_pad {b : Block} (hp : phisAgree info b = true) {e : Inst} {r : List Inst}
    {rest : List Segment} (h : Segments info b (front b) (((e.id, getMode info e), r) :: rest)) :
    frontLabel info b = invertMode (getMode info e) := by
  have hs : scanned info b = b.insts := by rw [scanned, if_pos hp]
  have hpts : blockPoints info b = changePoints info (headMode info b.insts) b.insts := by
    simp only [blockPoints, hp, if_true, List.nil_append]
  rw [frontLabel, hs, ← hpts, h.points]
  rfl

theorem frontLabel_mixed {b : Block} (hp : phisAgree info b = false) {i : Inst} {is : List Inst}
    (hi : behind b = i :: is) {r : List Inst} {rest : List Segment}
    (h : Segments info b (front b) (((i.id, invertMode (getMode info i)), r) :: rest)) :
    frontLabel info b = getMode info i := by
  have hs : scanned info b = i :: is := by simp only [scanned, hp, Bool.false_eq_true, if_false, hi]
  have hinv : invertMode (invertMode (getMode info i)) = getMode info i :=
    invertMode_of_ne (invertMode_ne _).symm
  rw [frontLabel, hs, h.points]
  split
  · rfl
  · exact hinv

end Segments

end Atrox
