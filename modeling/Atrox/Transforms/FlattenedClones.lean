import Atrox.Transforms.GlobalOutputs
import Atrox.Transforms.TypedRefs

/-!
# Flattening the accesses of the clones

The loop looks the GEPs of the accesses up in `VMap`, which has the clones of the region and
nothing else. What its rounds leave alone, what they rewrite, and where the accesses point to
once the clones are remapped.
-/

namespace Atrox
open IR Lib

section Property

/- Before the first round. -/
def flattenStart (ce : CodeExtractor) (M : Module) (old : Function) : Module × ValueMap :=
  (cloneBlocks M ce.blocks.elems old.id, cloneMap M ce.blocks.elems)

/- The rounds for the accesses `pre`, the first ones of the list, end in `st`. -/
def RoundsTo (ce : CodeExtractor) (M : Module) (old : Function) (pre : List InstId) (st : Module × ValueMap) : Prop :=
  pre <+: ce.toFlatten ∧ pre.foldlM flattenAccess (flattenStart ce M old) = some st

/- The GEP that the round for an access flattens and erases. -/
def flattenedGEP (st : Module × ValueMap) (access : InstId) : Option Inst := do
  let ptr ← accessGEP st.1 access
  match ← st.2.val ptr.val with
  | .inst g _ =>
    let gep ← st.1.inst? g
    if gep.op = .getElementPtr then
      let (_, new) ← flattenMultiDimArrayIndices st.1 gep
      new.map fun _ => gep
    else none
  | _ => none

/- What a round does, told by the GEP it flattens. -/
inductive Round (st : Module × ValueMap) (access : InstId) : Module × ValueMap → Prop where
  | skip : flattenedGEP st access = none → Round st access st
  | flatten (gep : Inst) (M' : Module) (new : Value) : flattenedGEP st access = some gep →
      flattenMultiDimArrayIndices st.1 gep = some (M', some new) → Round st access (M', st.2.follow gep.val new)

/- What stands in the new function for a flattened GEP. -/
def FlattenedPointer (M : Module) (gep : Inst) (F : Function) (p : Value) : Prop :=
  (∃ base idx n new, gep.operands = base :: idx ∧
    flattenGEP (cloneInst M.nextId gep) base idx (getDecomposedArraySizes base.ty) n = some (p, new)) ∧
  ∃ y ∈ F.insts, y.val = p ∧ y.op = .getElementPtr

/- In every round the entry of the GEP is there, and what is flattened is no instruction of the
original function, which keeps its blocks; no GEP is flattened in two rounds. -/
structure RoundsFlatten (ce : CodeExtractor) (M : Module) (old : Function) : Prop where
  entry : ∀ pre a st, RoundsTo ce M old pre st → pre ++ [a] <+: ce.toFlatten →
    ∀ ptr, accessGEP st.1 a = some ptr → (st.2.val ptr.val).isSome = true
  original : ∀ pre st, RoundsTo ce M old pre st → (∃ cs n, st.1 = clonedModule M old.id cs n) ∧
    ∀ a gep, pre ++ [a] <+: ce.toFlatten → flattenedGEP st a = some gep → gep.id ∉ M.insts.map Inst.id
  once : ∀ pre a mid b st st', RoundsTo ce M old pre st → RoundsTo ce M old (pre ++ a :: mid) st' →
    pre ++ a :: mid ++ [b] <+: ce.toFlatten → (flattenedGEP st a).isSome = true →
    (flattenedGEP st' b).isSome = true → accessGEP st.1 a ≠ accessGEP st'.1 b

/- Accesses through a flattened GEP, as the new function `F` has them. -/
def AccessesFlattened (ce : CodeExtractor) (M : Module) (old : Function) (F : Function) : Prop :=
  ∀ st, RoundsTo ce M old ce.toFlatten st → ∀ gep ∈ M.regionInsts ce.blocks.elems,
    flattens M ce.toFlatten gep = true →
    ∃ p, st.2.val gep.val = some p ∧ FlattenedPointer M gep F p ∧
      ∀ i ∈ M.regionInsts ce.blocks.elems, getPointerOperand i = some gep.val →
        ∀ u ∈ F.insts, u.id = M.nextId + i.id → getPointerOperand u = some p

/- Flattening touches clones only and covers every access. -/
def ClonesFlattened (ce : CodeExtractor) (M : Module) (header : BlockId) (old : Function) : Prop :=
  RoundsFlatten ce M old ∧ ∀ M' f, cloneSevered ce M header old = some (M', f) →
    ∃ F, M'.funcs.find? (fun g => g.id = f) = some F ∧ AccessesFlattened ce M old F

/- An access through a GEP outside the region comes after one through a GEP that cannot be
flattened. -/
def AddressesInRegion (ce : CodeExtractor) (M : Module) : Prop :=
  ∀ pre a, pre ++ [a] <+: ce.toFlatten →
    (∀ b ∈ pre, ∀ ptr, accessGEP M b = some ptr → (flattenMultiDimArrayIndices M ptr).isSome = true) →
    ∀ ptr, accessGEP M a = some ptr → ptr ∈ M.regionInsts ce.blocks.elems

/- No GEP that is flattened, and has an access through it, is an input. -/
def NoInputFlattened (ce : CodeExtractor) (M : Module) : Prop :=
  ∀ gep ∈ M.regionInsts ce.blocks.elems, flattens M ce.toFlatten gep = true →
    ∀ i ∈ M.regionInsts ce.blocks.elems, getPointerOperand i = some gep.val → gep.val ∉ ce.inputs

/- What the loop starts from, once the region is severed. -/
structure CloneStart (ce : CodeExtractor) (M : Module) (old : Function) : Prop where
  wf : M.WF
  old_mem : old.id ∈ M.funcs.map Function.id
  exist : ∀ b ∈ ce.blocks.elems, ∃ x ∈ M.blocks, x.id = b
  inputs : ∀ v ∈ ce.inputs, v.below M.nextId
  slots : ∀ v ∈ ce.stackAllocas, v ∈ ce.inputs
  accesses : ∀ a ∈ ce.toFlatten, M.nextId > a

end Property

section Again

/- Whether an operation is created is a matter of the types. -/
theorem createBinOp_again {op : Opcode} {fold : Const → Const → Const} (hfold : ∀ a b, (fold a b).ty = a.ty)
    {s : IRBuilder} {a b a' b' : Value} (ha : a'.ty = a.ty) (hb : b'.ty = b.ty) {r : Value × IRBuilder}
    (h : IRBuilder.createBinOp op fold s a b = some r) (s' : IRBuilder) :
    ∃ r', IRBuilder.createBinOp op fold s' a' b' = some r' ∧ r'.1.ty = r.1.ty := by
  obtain ⟨hab, hty⟩ := createBinOp_ty hfold h
  have hty' : a'.ty = b'.ty := ha.trans (hab.trans hb.symm)
  obtain ⟨r', hr⟩ := createBinOp_some op fold s' hty'
  exact ⟨r', hr, (createBinOp_ty hfold hr).2.trans (ha.trans hty.symm)⟩

theorem scaleIndices_again {ps : List Nat} {s : IRBuilder} {vs : List Value} {r : List Value × IRBuilder}
    (h : scaleIndices s ps vs = some r) (s' : IRBuilder) :
    ∃ r', scaleIndices s' ps vs = some r' ∧ r'.1.map Value.ty = r.1.map Value.ty := by
  induction ps generalizing s s' vs r with
  | nil =>
    cases h
    exact ⟨([], s'), rfl, rfl⟩
  | cons p ps ih =>
    cases vs with
    | nil => exact nomatch h
    | cons v vs =>
      obtain ⟨q, hq, h⟩ := Option.bind_eq_some_iff.mp h
      obtain ⟨t, ht, rfl⟩ := Option.map_eq_some_iff.mp h
      obtain ⟨q', hq', hqty⟩ := createBinOp_again foldMul_ty rfl rfl hq s'
      obtain ⟨t', ht', htty⟩ := ih ht q'.2
      refine ⟨(q'.1 :: t'.1, t'.2), ?_, ?_⟩
      · exact Option.bind_eq_some_iff.mpr ⟨q', hq', Option.map_eq_some_iff.mpr ⟨t', ht', rfl⟩⟩
      · rw [List.map_cons, List.map_cons, hqty, htty]

theorem sumIndices_again {vs vs' : List Value} {s : IRBuilder} {sum sum' : Value} {r : Value × IRBuilder}
    (hvs : vs'.map Value.ty = vs.map Value.ty) (hsum : sum'.ty = sum.ty) (h : sumIndices s sum vs = some r)
    (s' : IRBuilder) :
    ∃ r', sumIndices s' sum' vs' = some r' := by
  induction vs generalizing s s' sum sum' vs' with
  | nil =>
    obtain rfl := List.map_eq_nil_iff.mp hvs
    exact ⟨_, rfl⟩
  | cons v vs ih =>
    obtain ⟨v', vs', rfl, hv, hvs⟩ := List.map_eq_cons_iff.mp hvs
    obtain ⟨q, hq, h⟩ := Option.bind_eq_some_iff.mp h
    obtain ⟨q', hq', hqty⟩ := createBinOp_again foldAdd_ty hsum hv hq s'
    obtain ⟨r', hr⟩ := ih hvs hqty h q'.2
    exact ⟨r', Option.bind_eq_some_iff.mpr ⟨q', hq', hr⟩⟩

/- Whether a GEP is flattened does not depend on the numbers that are free. -/
theorem flattenGEP_again {gep gep' : Inst} (hty : gep'.ty = gep.ty) {base : Value} {indices : List Value}
    {sizes : List Nat} {n : Nat} (m : Nat) {r : Value × IRBuilder} (h : flattenGEP gep base indices sizes n = some r) :
    ∃ r', flattenGEP gep' base indices sizes m = some r' := by
  obtain ⟨q, first, sum, newTypes, t, hq, hfirst, hsum, htypes, ht, hsame, -⟩ := flattenGEP_iff.mp h
  obtain ⟨q', hq', hqty⟩ := scaleIndices_again hq ⟨m, []⟩
  have hhead := congrArg List.head? hqty
  rw [List.head?_map, List.head?_map, hfirst] at hhead
  obtain ⟨first', hfirst', hfty⟩ := Option.map_eq_some_iff.mp hhead
  have htail := congrArg List.tail hqty
  rw [← List.map_tail, ← List.map_tail] at htail
  obtain ⟨sum', hsum'⟩ := sumIndices_again htail hfty hsum q'.2
  exact ⟨_, flattenGEP_iff.mpr
    ⟨q', first', sum', newTypes, t, hq', hfirst', hsum', htypes, ht, hty.trans hsame, rfl⟩⟩

theorem flatten_isSome_congr {M M' : Module} {gep gep' : Inst} (hops : gep'.operands = gep.operands)
    (hty : gep'.ty = gep.ty)
    (h : (flattenMultiDimArrayIndices M gep).isSome = true) :
    (flattenMultiDimArrayIndices M' gep').isSome = true := by
  unfold flattenMultiDimArrayIndices at h ⊢
  rw [hops]
  split
  · rfl
  · next base indices hb =>
    rw [hb] at h
    dsimp only at h ⊢
    split
    · rfl
    · next hgt =>
      rw [if_neg hgt, Option.isSome_map] at h
      obtain ⟨r, hr⟩ := Option.isSome_iff_exists.mp h
      obtain ⟨r', hr'⟩ := flattenGEP_again hty M'.nextId hr
      rw [hr']
      rfl

end Again

section Round

theorem flatten_none {M M' : Module} {gep : Inst} (h : flattenMultiDimArrayIndices M gep = some (M', none)) :
    M' = M := by
  unfold flattenMultiDimArrayIndices at h
  split at h
  · cases h
    rfl
  · dsimp only at h
    split at h
    · cases h
      rfl
    · obtain ⟨r, -, hr⟩ := Option.map_eq_some_iff.mp h
      exact nomatch (Prod.mk.inj hr).2

theorem flattenAccess_round {st st' : Module × ValueMap} {a : InstId} (h : flattenAccess st a = some st') :
    Round st a st' := by
  unfold flattenAccess at h
  cases hptr : accessGEP st.1 a with
  | none =>
    rw [hptr] at h
    cases h
    exact .skip (by rw [flattenedGEP, hptr]; rfl)
  | some ptr =>
    rw [hptr] at h
    obtain ⟨cgep, hcg, h⟩ := Option.bind_eq_some_iff.mp h
    cases cgep with
    | inst j t =>
      dsimp only at h
      cases hfind : st.1.inst? j with
      | none =>
        rw [hfind] at h
        cases h
      | some gep =>
        rw [hfind] at h
        dsimp only at h
        split at h
        · next hop =>
          obtain ⟨⟨M', r⟩, hfl, h⟩ := Option.bind_eq_some_iff.mp h
          have hround : flattenedGEP st a = r.map fun _ => gep := by
            simp only [flattenedGEP, bind, Option.bind_some, hptr, hcg, hfind, if_pos hop, hfl]
          cases r with
          | none =>
            cases h
            rw [flatten_none hfl]
            exact .skip hround
          | some new =>
            cases h
            exact .flatten gep M' new hround hfl
        · next hop =>
          cases h
          exact .skip (by simp only [flattenedGEP, bind, Option.bind_some, hptr, hcg, hfind, if_neg hop])
    | _ =>
      cases h
      exact .skip (by simp only [flattenedGEP, bind, Option.bind_some, hptr, hcg])

variable {M : Module} {bs : List BlockId} {f : FuncId} {cs : List Block} {n : Nat} {vm : ValueMap} {a : InstId}
  {accesses : List InstId} {g : Inst → List Inst}

/- Clones are found by their numbers. -/
theorem Clones.inst? (hM : M.WF) (hf : f ∈ M.funcs.map Function.id) (hc : Clones M bs cs n vm) {x : Inst}
    (hx : x ∈ cs.flatMap Block.insts) : (clonedModule M f cs n).inst? x.id = some x := by
  obtain ⟨b, hb, hxb⟩ := List.mem_flatMap.mp hx
  obtain ⟨k, hk, rfl⟩ := List.mem_map.mp hf
  have hmem : x ∈ (clonedModule M k.id cs n).insts := by
    refine List.mem_flatMap.mpr ⟨b, List.mem_flatMap.mpr ⟨_, List.mem_map_of_mem hk, ?_⟩, hxb⟩
    rw [if_pos rfl]
    exact List.mem_append_right _ hb
  have hsome : ((clonedModule M k.id cs n).inst? x.id).isSome = true := List.find?_isSome.mpr ⟨x, hmem, by simp⟩
  obtain ⟨y, hy⟩ := Option.isSome_iff_exists.mp hsome
  have hid : y.id = x.id := inst?_id hy
  rcases clonedModule_insts M k.id cs n y (inst?_mem hy) with hold | hclone
  · have h1 := hM.insts_lt y hold
    have h2 := hc.insts_ge x hx
    omega
  · rw [hy, List.inj_on_of_nodup_map hc.insts_nodup hclone hx hid]

/- A GEP that a round flattens gives way. -/
theorem flattenedGEP_places (hM : M.WF) (hc : Clones M bs cs n vm) {gep : Inst}
    (h : flattenedGEP (clonedModule M f cs n, vm) a = some gep) :
    M.nextId ≤ gep.id ∧ ∃ r new, Places f M cs n vm a gep r new := by
  unfold flattenedGEP at h
  obtain ⟨ptr, hptr, h⟩ := Option.bind_eq_some_iff.mp h
  obtain ⟨cgep, hcg, h⟩ := Option.bind_eq_some_iff.mp h
  obtain ⟨j, t, rfl, hj⟩ := hc.val_ge _ _ hcg
  obtain ⟨x, hx, h⟩ := Option.bind_eq_some_iff.mp h
  split at h
  · next hop =>
    obtain ⟨⟨M', r⟩, hfl, h⟩ := Option.bind_eq_some_iff.mp h
    obtain ⟨new, hr, rfl⟩ := Option.map_eq_some_iff.mp h
    dsimp only at hr hx hptr hcg
    subst hr
    have hid : x.id = j := inst?_id hx
    subst hid
    refine ⟨hj, ?_⟩
    have hmem : x ∈ cs.flatMap Block.insts := by
      rcases clonedModule_insts M f cs n x (inst?_mem hx) with hm | hm
      · have := hM.insts_lt x hm
        omega
      · exact hm
    rcases flatten_clonedModule f hM hj hfl with ⟨-, hno, -⟩ | ⟨base, idx, nb, gv, hops, hdim, hnew, -, -⟩
    · exact nomatch hno
    · exact ⟨gv, nb, ⟨ptr, t, hptr, hcg⟩, hmem, hop, hdim, base, idx, hops, hnew⟩
  · exact nomatch h

/- The clone that the entry of a GEP leads to can be flattened if the GEP can. -/
theorem CloneShape.entry (hM : M.WF) (hf : f ∈ M.funcs.map Function.id) (h : CloneShape M bs accesses cs vm g)
    (hc : Clones M bs cs n vm) {ptr : Inst} (hptr : ptr ∈ M.regionInsts bs) (hop : ptr.op = .getElementPtr) :
    ∃ x : Inst, vm.val ptr.val = some x.val ∧ (clonedModule M f cs n).inst? x.id = some x ∧ x.op = .getElementPtr ∧
      ((flattenMultiDimArrayIndices (clonedModule M f cs n) x).isSome = true ↔
        (flattenMultiDimArrayIndices M ptr).isSome = true) := by
  have hpiece := h.piece ptr hptr
  generalize hgp : g ptr = is at hpiece
  generalize hv : vm.val ptr.val = v at hpiece
  cases hpiece with
  | copy =>
    have hmem := h.mem hptr (j := cloneInst M.nextId ptr) (by rw [hgp]; exact List.mem_singleton_self _)
    exact ⟨cloneInst M.nextId ptr, rfl, hc.inst? hM hf hmem, hop, flatten_isSome_congr rfl rfl,
      flatten_isSome_congr rfl rfl⟩
  | flat base r idx m new hyes _ hops _ hnew =>
    -- the pointer put in is one-dimensional
    obtain ⟨-, is', y, sum, c, hinsts, hy, -, hyop, -⟩ := flattenGEP_spec hnew
    have hym : y ∈ new.insts := by
      rw [show new.insts = is' ++ [y] from hinsts]
      exact List.mem_append_right _ (List.mem_singleton_self y)
    obtain ⟨p, rest, hp, hsizes⟩ := flattenGEP_last hnew y hym hyop
    have hmem := h.mem hptr (j := y) (by rw [hgp]; exact hym)
    refine ⟨y, congrArg some hy.symm, hc.inst? hM hf hmem, hyop, iff_of_true ?_ ?_⟩
    · unfold flattenMultiDimArrayIndices
      rw [hp]
      dsimp only
      rw [hsizes]
      rfl
    · obtain ⟨r', hr'⟩ := flattenGEP_again (show ptr.ty = (cloneInst M.nextId ptr).ty from rfl) M.nextId hnew
      unfold flattenMultiDimArrayIndices
      rw [hops]
      dsimp only
      split
      · rfl
      · rw [hr']
        rfl

/- A round goes through if its access goes through no GEP, or through one of the region that can be
flattened. -/
theorem flattenAccess_isSome_iff (hM : M.WF) (hf : f ∈ M.funcs.map Function.id) (h : CloneShape M bs accesses cs vm g)
    (hc : Clones M bs cs n vm) (ha : M.nextId > a) :
    (flattenAccess (clonedModule M f cs n, vm) a).isSome = true ↔ ∀ ptr, accessGEP M a = some ptr →
      ptr ∈ M.regionInsts bs ∧ (flattenMultiDimArrayIndices M ptr).isSome = true := by
  unfold flattenAccess
  dsimp only
  rw [accessGEP_cloned hM hc.insts_ge ha]
  cases hptr : accessGEP M a with
  | none => exact iff_of_true rfl fun ptr hp => nomatch hp
  | some ptr =>
    dsimp only
    simp only [Option.some.injEq, forall_eq']
    by_cases hreg : ptr ∈ M.regionInsts bs
    · obtain ⟨x, hval, hfind, hop, hiff⟩ := h.entry hM hf hc hreg (accessGEP_some hptr).2
      rw [← hiff, and_iff_right hreg, hval]
      simp only [bind, Option.bind_some, Inst.val, hfind, if_pos hop]
      cases flattenMultiDimArrayIndices (clonedModule M f cs n) x with
      | none => exact iff_of_false Bool.false_ne_true Bool.false_ne_true
      | some r => obtain ⟨M', _ | new⟩ := r <;> exact iff_of_true rfl rfl
    · have hnone : vm.val ptr.val = none := by
        cases hv : vm.val ptr.val with
        | none => rfl
        | some w => exact absurd (access_region hM hc hptr hv) hreg
      rw [hnone]
      exact iff_of_false Bool.false_ne_true fun hboth => hreg hboth.1

end Round

section Rounds
variable {ce : CodeExtractor} {M : Module} {old : Function} {pre : List InstId} {st : Module × ValueMap} {a : InstId}

/- Between two rounds: the clones are numbered apart from the originals, and each is a copy or what the
rounds for `pre` have flattened. -/
def BetweenRounds (ce : CodeExtractor) (M : Module) (old : Function) (pre : List InstId)
    (st : Module × ValueMap) : Prop :=
  ∃ cs n g, st.1 = clonedModule M old.id cs n ∧ Clones M ce.blocks.elems cs n st.2 ∧
    CloneShape M ce.blocks.elems pre cs st.2 g

theorem CloneStart.start (h : CloneStart ce M old) : BetweenRounds ce M old [] (flattenStart ce M old) :=
  ⟨_, _, _, cloneBlocks_eq M ce.blocks.elems old.id, Clones.start h.wf ce.blocks.nodup h.exist, CloneShape.start h.wf⟩

theorem CloneStart.round (h : CloneStart ce M old) (hst : BetweenRounds ce M old pre st) (ha : M.nextId > a)
    {st' : Module × ValueMap} (hr : flattenAccess st a = some st') : BetweenRounds ce M old (pre ++ [a]) st' := by
  obtain ⟨N, vm⟩ := st
  obtain ⟨cs, n, g, rfl, hc, hg⟩ := hst
  rcases flattenAccess_inv old.id h.wf hc hr with ⟨rfl, hs⟩ | ⟨gep, r, new, hp, rfl⟩
  · exact ⟨cs, n, g, rfl, hc, hg.skip h.wf hc ha hs⟩
  · obtain ⟨base, idx, -, hnew⟩ := hp.flat
    exact ⟨_, _, _, rfl, hc.place hnew, hg.place h.wf hc ha hp⟩

theorem CloneStart.rounds (h : CloneStart ce M old) (hr : RoundsTo ce M old pre st) :
    BetweenRounds ce M old pre st := by
  obtain ⟨hpre, hrun⟩ := hr
  refine foldlM_run (P := BetweenRounds ce M old) pre (fun seen b rest s s' hsplit hs hstep => ?_) h.start hrun
  have hb : b ∈ pre := hsplit ▸ List.mem_append_right seen (List.mem_cons_self ..)
  exact h.round hs (h.accesses b (hpre.subset hb)) hstep

/- The access goes through no GEP, or through one of the region that can be flattened. -/
def Handled (ce : CodeExtractor) (M : Module) (a : InstId) : Prop :=
  ∀ ptr, accessGEP M a = some ptr →
    ptr ∈ M.regionInsts ce.blocks.elems ∧ (flattenMultiDimArrayIndices M ptr).isSome = true

theorem CloneStart.reaches_iff (h : CloneStart ce M old) (hpre : pre <+: ce.toFlatten) :
    (∃ st, RoundsTo ce M old pre st) ↔ ∀ b ∈ pre, Handled ce M b := by
  have hiff : (pre.foldlM flattenAccess (flattenStart ce M old)).isSome = true ↔ ∀ b ∈ pre, Handled ce M b := by
    refine foldlM_isSome_iff (P := fun s => ∃ seen, BetweenRounds ce M old seen s) pre ?_ ?_ ⟨[], h.start⟩
    · rintro b ⟨N, vm⟩ hb ⟨seen, cs, n, g, rfl, hc, hg⟩
      exact flattenAccess_isSome_iff h.wf h.old_mem hg hc (h.accesses b (hpre.subset hb))
    · rintro b s s' hb ⟨seen, hs⟩ hstep
      exact ⟨seen ++ [b], h.round hs (h.accesses b (hpre.subset hb)) hstep⟩
  rw [← hiff, Option.isSome_iff_exists]
  exact ⟨fun ⟨st, _, hrun⟩ => ⟨st, hrun⟩, fun ⟨st, hrun⟩ => ⟨st, hpre, hrun⟩⟩

theorem CloneStart.access_lt (h : CloneStart ce M old) (ha : pre ++ [a] <+: ce.toFlatten) : M.nextId > a :=
  h.accesses a (ha.subset (List.mem_append_right pre (List.mem_singleton_self a)))

/- The rounds look at the accesses of the original function. -/
theorem BetweenRounds.access (hM : M.WF) (hst : BetweenRounds ce M old pre st) (ha : M.nextId > a) :
    accessGEP st.1 a = accessGEP M a := by
  obtain ⟨cs, n, g, he, hc, -⟩ := hst
  rw [he]
  exact accessGEP_cloned hM hc.insts_ge ha

/- The GEPs of the region, and no others, have an entry. -/
theorem BetweenRounds.entry_iff (hM : M.WF) (hst : BetweenRounds ce M old pre st) {ptr : Inst}
    (hptr : accessGEP M a = some ptr) : (st.2.val ptr.val).isSome = true ↔ ptr ∈ M.regionInsts ce.blocks.elems := by
  obtain ⟨cs, n, g, -, hc, hg⟩ := hst
  constructor
  · intro hsome
    obtain ⟨w, hw⟩ := Option.isSome_iff_exists.mp hsome
    exact access_region hM hc hptr hw
  · intro hreg
    obtain ⟨y, -, hy⟩ := (hg.piece ptr hreg).val
    rw [hy]
    rfl

theorem CloneStart.entry_iff (h : CloneStart ce M old) :
    (∀ pre a st, RoundsTo ce M old pre st → pre ++ [a] <+: ce.toFlatten →
      ∀ ptr, accessGEP st.1 a = some ptr → (st.2.val ptr.val).isSome = true) ↔ AddressesInRegion ce M := by
  constructor
  · intro hentry
    -- an access whose GEP is looked up has it in the region
    have hnext : ∀ pre a, pre ++ [a] <+: ce.toFlatten → (∀ b ∈ pre, Handled ce M b) →
        ∀ ptr, accessGEP M a = some ptr → ptr ∈ M.regionInsts ce.blocks.elems := by
      intro pre a ha hall ptr hptr
      obtain ⟨st, hst⟩ := (h.reaches_iff ((List.prefix_append pre [a]).trans ha)).mpr hall
      have hbetween := h.rounds hst
      have haccess := (hbetween.access h.wf (h.access_lt ha)).trans hptr
      exact (hbetween.entry_iff h.wf hptr).mp (hentry pre a st hst ha ptr haccess)
    -- by induction on the accesses seen
    have hall : ∀ pre, pre <+: ce.toFlatten →
        (∀ b ∈ pre, ∀ ptr, accessGEP M b = some ptr → (flattenMultiDimArrayIndices M ptr).isSome = true) →
        ∀ b ∈ pre, Handled ce M b := by
      intro pre
      induction pre using List.reverseRecOn with
      | nil => exact fun _ _ b hb => absurd hb List.not_mem_nil
      | append_singleton pre a ih =>
        intro ha hflat b hb
        have hpre := ih ((List.prefix_append pre [a]).trans ha) fun c hc => hflat c (List.mem_append_left _ hc)
        rcases List.mem_append.mp hb with hb' | hb'
        · exact hpre b hb'
        · obtain rfl := List.mem_singleton.mp hb'
          exact fun ptr hptr => ⟨hnext pre b ha hpre ptr hptr, hflat b hb ptr hptr⟩
    intro pre a ha hflat
    exact hnext pre a ha (hall pre ((List.prefix_append pre [a]).trans ha) hflat)
  · intro hregion pre a st hst ha ptr hptr
    have hbetween := h.rounds hst
    rw [hbetween.access h.wf (h.access_lt ha)] at hptr
    have hall := (h.reaches_iff hst.1).mp ⟨st, hst⟩
    exact (hbetween.entry_iff h.wf hptr).mpr (hregion pre a ha (fun b hb q hq => (hall b hb q hq).2) ptr hptr)

/- What a round flattens is the clone of the GEP of its access, which no earlier round has flattened. -/
theorem BetweenRounds.flattens (hM : M.WF) (hst : BetweenRounds ce M old pre st) (ha : M.nextId > a) {gep : Inst}
    (h : flattenedGEP st a = some gep) : ∃ i ∈ M.regionInsts ce.blocks.elems, accessGEP M a = some i ∧
      gep = cloneInst M.nextId i ∧ 1 < dimensions i ∧ Atrox.flattens M pre i = false := by
  obtain ⟨N, vm⟩ := st
  obtain ⟨cs, n, g, rfl, hc, hg⟩ := hst
  obtain ⟨-, r, new, hp⟩ := flattenedGEP_places hM hc h
  obtain ⟨i, hi, hai, rfl, hcopy, hval⟩ := hg.placed hM hc ha hp
  refine ⟨i, hi, hai, rfl, hp.dims, ?_⟩
  have hpiece := hg.piece i hi
  rw [hcopy, hval] at hpiece
  generalize hv : some (cloneInst M.nextId i).val = v at hpiece
  generalize his : [cloneInst M.nextId i] = is at hpiece
  cases hpiece with
  | copy hno => exact hno
  | flat base u idx m new' _ _ _ hm hnew =>
    -- what is put in has fresh numbers
    obtain ⟨⟨hids, -⟩, -⟩ := flattenGEP_spec hnew
    have hmem : (cloneInst M.nextId i).id ∈ List.range' m new'.insts.length :=
      hids ▸ List.mem_map_of_mem (his ▸ List.mem_singleton_self _)
    rw [List.mem_range'_1, cloneInst_id] at hmem
    have := hM.insts_lt i (regionInsts_sub hM.toIds hi)
    omega

theorem CloneStart.original (h : CloneStart ce M old) (hr : RoundsTo ce M old pre st) :
    (∃ cs n, st.1 = clonedModule M old.id cs n) ∧
      ∀ a gep, pre ++ [a] <+: ce.toFlatten → flattenedGEP st a = some gep → gep.id ∉ M.insts.map Inst.id := by
  have hst := h.rounds hr
  constructor
  · obtain ⟨cs, n, -, he, -⟩ := hst
    exact ⟨cs, n, he⟩
  · intro a gep ha hgep hin
    obtain ⟨i, -, -, rfl, -⟩ := hst.flattens h.wf (h.access_lt ha) hgep
    obtain ⟨x, hx, hid⟩ := List.mem_map.mp hin
    rw [cloneInst_id] at hid
    have := h.wf.insts_lt x hx
    omega

theorem CloneStart.once (h : CloneStart ce M old) {mid : List InstId} {b : InstId} {st' : Module × ValueMap}
    (hr : RoundsTo ce M old pre st) (hr' : RoundsTo ce M old (pre ++ a :: mid) st')
    (hb : pre ++ a :: mid ++ [b] <+: ce.toFlatten) (hfirst : (flattenedGEP st a).isSome = true)
    (hsecond : (flattenedGEP st' b).isSome = true) : accessGEP st.1 a ≠ accessGEP st'.1 b := by
  have hst := h.rounds hr
  have hst' := h.rounds hr'
  have ha : M.nextId > a := h.accesses a (hr'.1.subset (List.mem_append_right pre (List.mem_cons_self ..)))
  obtain ⟨x, hx⟩ := Option.isSome_iff_exists.mp hfirst
  obtain ⟨y, hy⟩ := Option.isSome_iff_exists.mp hsecond
  obtain ⟨i, -, hai, -, hdim, -⟩ := hst.flattens h.wf ha hx
  obtain ⟨j, -, hbj, -, -, hno⟩ := hst'.flattens h.wf (h.access_lt hb) hy
  rw [hst.access h.wf ha, hst'.access h.wf (h.access_lt hb), hai, hbj]
  intro he
  obtain rfl := Option.some.inj he
  have hyes : Atrox.flattens M (pre ++ a :: mid) i = true := by
    simp only [Atrox.flattens, List.any_append, List.any_cons, hai, decide_true, Bool.true_or, Bool.or_true,
      Bool.and_true,
      decide_eq_true_eq]
    exact hdim
  rw [hyes] at hno
  cases hno

theorem CloneStart.roundsFlatten_iff (h : CloneStart ce M old) : RoundsFlatten ce M old ↔ AddressesInRegion ce M := by
  refine ⟨fun hr => h.entry_iff.mp hr.entry, fun hregion => ⟨h.entry_iff.mpr hregion, ?_, ?_⟩⟩
  · exact fun pre st hr => h.original hr
  · exact fun pre a mid b st st' hr hr' hb hfirst hsecond => h.once hr hr' hb hfirst hsecond

end Rounds

section Accesses

/- An access is no GEP, and no intrinsic that is erased. -/
theorem access_kept {i : Inst} {p : Value} (h : getPointerOperand i = some p) :
    i.op ≠ .getElementPtr ∧ isIgnoredIntrinsic i = false := by
  unfold getPointerOperand at h
  unfold isIgnoredIntrinsic Opcode.intrinsic?
  split at h
  · next hop =>
    rw [hop]
    exact ⟨nofun, rfl⟩
  · next hop =>
    rw [hop]
    exact ⟨nofun, rfl⟩
  · next c args hop =>
    rw [hop]
    refine ⟨nofun, ?_⟩
    dsimp only
    split at h
    · next hc => rw [hc]; rfl
    · next hc => rw [hc]; rfl
    · next hc => rw [hc]; rfl
    · exact nomatch h
  · exact nomatch h

variable {ce : CodeExtractor} {M : Module} {header : BlockId} {old : Function} (k : Cloned ce M header old)
  {g : Inst → List Inst}

theorem Cloned.access_pointer (hg : CloneShape M ce.blocks.elems ce.toFlatten k.clones k.vm g) {i : Inst}
    (hi : i ∈ M.regionInsts ce.blocks.elems) {u : Inst} (hu : u ∈ k.newFunction.insts)
    (hid : u.id = M.nextId + i.id) :
    getPointerOperand u = (getPointerOperand i).map k.image := by
  obtain ⟨-, hcore⟩ := k.clone_core hg hi hu hid
  have hop : u.op = i.op := (op_of_core hcore).trans rfl
  exact getPointerOperand_map hop (k.clone_spec hg hi hu hid).2

/- The access of a list entry is kept as it is: only GEPs are flattened. -/
theorem flattens_access {accesses : List InstId} {i : Inst} (h : i.op ≠ .getElementPtr) :
    flattens M accesses i = false := by
  rw [Bool.eq_false_iff]
  intro hf
  obtain ⟨a, -, ha⟩ := List.any_eq_true.mp (Bool.and_eq_true_iff.mp hf).2
  exact h (accessGEP_some (of_decide_eq_true ha)).2

/- The entry of a flattened GEP is the pointer put in for it. -/
theorem Cloned.flattened_entry (hg : CloneShape M ce.blocks.elems ce.toFlatten k.clones k.vm g) {gep : Inst}
    (hgep : gep ∈ M.regionInsts ce.blocks.elems) (hf : flattens M ce.toFlatten gep = true) :
    ∃ y ∈ k.clones.flatMap Block.insts, k.vm.val gep.val = some y.val ∧
      FlattenedPointer M gep k.newFunction y.val := by
  have hpiece := hg.piece gep hgep
  generalize hgp : g gep = is at hpiece
  generalize hv : k.vm.val gep.val = v at hpiece
  cases hpiece with
  | copy hno =>
    rw [hf] at hno
    exact nomatch hno
  | flat base r idx n new _ _ hops _ hnew =>
    obtain ⟨-, is', y, sum, c, hinsts, rfl, -, hop, -⟩ := flattenGEP_spec hnew
    have hym : y ∈ new.insts := by
      rw [show new.insts = is' ++ [y] from hinsts]
      exact List.mem_append_right _ (List.mem_singleton_self y)
    obtain ⟨b, hb, hgb⟩ := List.mem_flatMap.mp hgep
    have hyb : y ∈ (expand M.nextId g b).insts := List.mem_flatMap.mpr ⟨gep, hgb, hgp ▸ hym⟩
    have hig : isIgnoredIntrinsic y = false := by
      unfold isIgnoredIntrinsic
      rw [hop]
      rfl
    obtain ⟨u, hu, hcore⟩ := finishBlock_of_mem k.ctx k.root.subst k.vm (M.nextId + header) hyb hig
    refine ⟨y, hg.mem hgep (hgp ▸ hym), rfl, ⟨base, idx, n, new, hops, hnew⟩, u, k.finish_mem hg hb hu, ?_, ?_⟩
    · have hty : u.ty = y.ty := (congrArg Inst.ty hcore).trans rfl
      rw [Inst.val, Inst.val, rewriteInst_core_id hcore, hty]
    · exact (op_of_core hcore).trans hop

/- It is what the clones get for the GEP, unless the GEP is an input. -/
theorem Cloned.image_flattened (hin : ∀ v ∈ ce.inputs, v.below M.nextId)
    (hslots : ∀ v ∈ ce.stackAllocas, v ∈ ce.inputs)
    {v : Value} {y : Inst} (hy : y ∈ k.clones.flatMap Block.insts) (hval : k.vm.val v = some y.val) :
    k.image v = y.val ↔ v ∉ ce.inputs := by
  constructor
  · intro himg hv
    obtain ⟨p, hp, -, he⟩ := k.subst_pair hin hslots hv
    have hhas := ((planRoot_has k.root_eq).2 p hp).2.1
    rw [Cloned.image, he, k.vm_none (k.has_undefined hhas), Option.getD_none] at himg
    have hlt := k.numbers.insts_lt y hy
    rcases hhas with ⟨c, hc⟩ | ⟨j, t, -, hc⟩ | ⟨x, hx, hc⟩
    · cases hc.symm.trans himg
    · cases hc.symm.trans himg
    · have hid : x.id = y.id := by
        have hxy := hc.symm.trans himg
        injection hxy
      have := (planRoot_from k.root_eq).2 x hx
      omega
  · intro hv
    rw [Cloned.image, k.subst_other hslots hv, hval, Option.getD_some]

/- The accesses use the pointers put in, unless these are inputs. -/
theorem Cloned.accessesFlattened_iff (h : CloneStart ce M old) :
    AccessesFlattened ce M old k.newFunction ↔ NoInputFlattened ce M := by
  obtain ⟨g, hg⟩ := k.shape h.accesses
  have hrun : RoundsTo ce M old ce.toFlatten (clonedModule M old.id k.clones k.n, k.vm) := by
    refine ⟨List.prefix_refl _, ?_⟩
    have hfl := k.flattened
    unfold flattenAccesses at hfl
    unfold CodeExtractor.toFlatten
    split at hfl
    · next hon =>
      obtain ⟨accesses, hacc, hfl⟩ := Option.bind_eq_some_iff.mp hfl
      rw [if_pos hon, hacc]
      exact hfl
    · next hoff =>
      rw [if_neg hoff]
      exact hfl
  constructor
  · intro hall gep hgep hf i hi hp
    obtain ⟨p, hval, -, haccess⟩ := hall _ hrun gep hgep hf
    obtain ⟨y, hy, hvaly, -⟩ := k.flattened_entry hg hgep hf
    obtain rfl : y.val = p := Option.some.inj (hvaly.symm.trans hval)
    obtain ⟨hop, hig⟩ := access_kept hp
    obtain ⟨u, hu, hid⟩ := k.has_clone hg hi hig (flattens_access hop)
    have hup := haccess i hi hp u hu hid
    rw [k.access_pointer hg hi hu hid, hp] at hup
    exact (k.image_flattened h.inputs h.slots hy hvaly).mp (Option.some.inj hup)
  · rintro hcond st ⟨-, hst⟩ gep hgep hf
    obtain rfl := Option.some.inj (hrun.2.symm.trans hst)
    obtain ⟨y, hy, hval, hptr⟩ := k.flattened_entry hg hgep hf
    refine ⟨y.val, hval, hptr, fun i hi hp u hu hid => ?_⟩
    rw [k.access_pointer hg hi hu hid, hp]
    exact congrArg some ((k.image_flattened h.inputs h.slots hy hval).mpr (hcond gep hgep hf i hi hp))

end Accesses

section Region
variable {ce₀ ce ce' : CodeExtractor} {M S : Module} {acc : Option (List InstId)} {header header' : BlockId}
    {old : Function}

/- Severing hands the loop a region to start from. -/
theorem severed_cloneStart {bbs : List BlockId} {iterInfo : Option IteratorInfo} {LBA : Option LoopBoundsAnalyzer}
    {DT : Option (BlockId → Bool)} {agg varArgs allocas flatten : Bool} (hM : M.WF)
    (h0 : codeExtractor M bbs iterInfo LBA DT agg varArgs allocas flatten = some ce₀)
    (hbs : ∀ b ∈ bbs, ∃ x ∈ M.blocks, x.id = b) (hp : ce₀.prepare M = some ce)
    (hacc : ∀ a ∈ acc.getD [], ∃ i ∈ M.insts, i.id = a) (hheader : header ∈ ce.blocks)
    (hold : M.parent? header = some old)
    (h : severSplitPHINodes { ce with accesses := acc } M header = some (ce', S, header')) :
    CloneStart ce' (splitReturnBlocks ce'.blocks S) old := by
  have hexist := prepare_exist h0 hbs hp
  have hfrom := severSplitPHINodes_from hM (by exact hexist) (by exact hheader) h
  obtain ⟨hwf, hfuncs, hkeep⟩ := splitReturnBlocks_from hfrom.wf ce'.blocks
  have hle : M.nextId ≤ (splitReturnBlocks ce'.blocks S).nextId :=
    Nat.le_trans (severSplitPHINodes_nextId h) (splitReturnBlocks_nextId ce'.blocks S)
  have hslots : ∀ v ∈ ce.stackAllocas, v ∈ ce.inputs := prepare_slots hp (codeExtractor_slots h0)
  refine ⟨hwf, ?_, fun b hb => hkeep b (hfrom.blocks b hb), fun v hv => ?_, ?_, flattenedAccesses_lt hM hle ?_⟩
  · rw [hfuncs, hfrom.funcs]
    exact List.mem_map_of_mem (List.mem_of_find?_eq_some hold)
  · rw [hfrom.sets.inputs] at hv
    obtain ⟨i, hi, hvi⟩ := findAll_inputs ((prepare_inputs_mem hp v).mp hv)
    exact (hM.operands_below i (regionInsts_sub hM.toIds hi) v hvi).mono hle
  · rw [hfrom.sets.stackAllocas, hfrom.sets.inputs]
    exact hslots
  · rw [hfrom.sets.accesses]
    exact hacc

/- A round flattens and erases the clone it finds for its access or nothing. Flattening is right exactly if no
access through a GEP outside the region is reached, and, where the call makes a function, no flattened GEP with
an access through it is an input of it. -/
theorem clonesFlattened_iff {bbs : List BlockId} {iterInfo : Option IteratorInfo} {LBA : Option LoopBoundsAnalyzer}
    {DT : Option (BlockId → Bool)} {agg varArgs allocas flatten : Bool} (hM : M.WF)
    (h0 : codeExtractor M bbs iterInfo LBA DT agg varArgs allocas flatten = some ce₀)
    (hbs : ∀ b ∈ bbs, ∃ x ∈ M.blocks, x.id = b) (hp : ce₀.prepare M = some ce)
    (hacc : ∀ a ∈ acc.getD [], ∃ i ∈ M.insts, i.id = a) (hheader : header ∈ ce.blocks)
    (hold : M.parent? header = some old)
    (h : severSplitPHINodes { ce with accesses := acc } M header = some (ce', S, header')) :
    (∀ st a st', flattenAccess st a = some st' → Round st a st') ∧
    (ClonesFlattened ce' (splitReturnBlocks ce'.blocks S) header' old ↔
      AddressesInRegion ce' (splitReturnBlocks ce'.blocks S) ∧
      ((cloneSevered ce' (splitReturnBlocks ce'.blocks S) header' old).isSome = true →
        NoInputFlattened ce' (splitReturnBlocks ce'.blocks S))) := by
  have hstart := severed_cloneStart hM h0 hbs hp hacc hheader hold h
  refine ⟨fun _ _ _ => flattenAccess_round, and_congr hstart.roundsFlatten_iff ⟨fun hall hsome => ?_,
    fun hcond M' f hrun => ?_⟩⟩
  · obtain ⟨⟨M', f⟩, hrun⟩ := Option.isSome_iff_exists.mp hsome
    obtain ⟨k, hk, -⟩ := cloneSevered_cloned hstart.wf hstart.old_mem hstart.exist hrun
    obtain ⟨rfl, rfl⟩ := Prod.mk.inj hk
    obtain ⟨F, hF, haccess⟩ := hall _ _ hrun
    obtain rfl := Option.some.inj (k.find_newFunction.symm.trans hF)
    exact (k.accessesFlattened_iff hstart).mp haccess
  · obtain ⟨k, hk, -⟩ := cloneSevered_cloned hstart.wf hstart.old_mem hstart.exist hrun
    obtain ⟨rfl, rfl⟩ := Prod.mk.inj hk
    exact ⟨k.newFunction, k.find_newFunction, (k.accessesFlattened_iff hstart).mpr (hcond (hrun ▸ rfl))⟩

/- `for (i = 0; i < n; ++i) a[k][j] = a[k][j] + i`, with the address computed in the body or ahead of the loop. -/
def cellLoop (hoisted : Bool) : Module where
  funcs := [{ id := 9, isVarArg := false, params :=
    [⟨"a", .ptr (.array 4 (.array 8 (.int 32))) 0⟩, ⟨"n", .int 32⟩, ⟨"k", .int 64⟩, ⟨"j", .int 64⟩], blocks :=
    [⟨0, (if hoisted then [cellGEP] else []) ++ [Inst.uncondBr 20 1], false⟩,
     ⟨1, [⟨10, .phi, .int 32, [.const (.int 32 0), .inst 16 (.int 32)], [0, 3], []⟩,
          ⟨12, .other 0, .int 1, [.inst 10 (.int 32), .arg 9 1 (.int 32)], [], []⟩,
          ⟨21, .br, .void, [.inst 12 (.int 1)], [], [2, 4]⟩], false⟩,
     ⟨2, (if hoisted then [] else [cellGEP]) ++
         [⟨14, .load, .int 32, [.inst 13 (.ptr (.int 32) 0)], [], []⟩,
          ⟨15, .add, .int 32, [.inst 14 (.int 32), .inst 10 (.int 32)], [], []⟩,
          ⟨17, .store, .void, [.inst 15 (.int 32), .inst 13 (.ptr (.int 32) 0)], [], []⟩,
          Inst.uncondBr 22 3], false⟩,
     ⟨3, [⟨16, .add, .int 32, [.inst 10 (.int 32), .const (.int 32 1)], [], []⟩,
          Inst.uncondBr 23 1], false⟩,
     ⟨4, [⟨24, .ret, .void, [], [], []⟩], false⟩] }]
  nextId := 30
  valueName := fun _ => ""
  initUsesBlockAddress := fun _ => false
where
  cellGEP : Inst := ⟨13, .getElementPtr, .ptr (.int 32) 0,
    [.arg 9 0 (.ptr (.array 4 (.array 8 (.int 32))) 0), .const (.int 64 0), .arg 9 2 (.int 64),
    .arg 9 3 (.int 64)], [], []⟩

def cellArgs : CloneLoopArgs := { sumArgs with flattenArrayAccesses := true }

theorem cellLoop_wf (hoisted : Bool) : (cellLoop hoisted).WF := by
  cases hoisted
  · exact ⟨⟨by decide, by decide, by decide, by decide⟩, by decide, by decide, by decide⟩
  · exact ⟨⟨by decide, by decide, by decide, by decide⟩, by decide, by decide, by decide⟩

/- The body of the loop up to the flattening. -/
def cellStart (hoisted : Bool) :
    Option (CodeExtractor × CodeExtractor × CodeExtractor × Module × BlockId × Function) := do
  let ce₀ ← codeExtractor (cellLoop hoisted) [2] (some sumInfo) (some cellArgs.LBA) none false false false true
  let ce ← ce₀.prepare (cellLoop hoisted)
  let old ← (cellLoop hoisted).parent? 2
  let (ce', S, header') ← severSplitPHINodes { ce with accesses := some [14, 17] } (cellLoop hoisted) 2
  return (ce₀, ce, ce', S, header', old)

theorem cellStart_spec {hoisted : Bool}
    {r : CodeExtractor × CodeExtractor × CodeExtractor × Module × BlockId × Function}
    (h : cellStart hoisted = some r) :
    codeExtractor (cellLoop hoisted) [2] (some sumInfo) (some cellArgs.LBA) none false false false true = some r.1 ∧
      r.1.prepare (cellLoop hoisted) = some r.2.1 ∧ (cellLoop hoisted).parent? 2 = some r.2.2.2.2.2 ∧
      severSplitPHINodes { r.2.1 with accesses := some [14, 17] } (cellLoop hoisted) 2 =
        some (r.2.2.1, r.2.2.2.1, r.2.2.2.2.1) := by
  unfold cellStart at h
  obtain ⟨ce₀, h0, h⟩ := Option.bind_eq_some_iff.mp h
  obtain ⟨ce, hp, h⟩ := Option.bind_eq_some_iff.mp h
  obtain ⟨old, hold, h⟩ := Option.bind_eq_some_iff.mp h
  obtain ⟨⟨ce', S, header'⟩, hs, h⟩ := Option.bind_eq_some_iff.mp h
  cases h
  exact ⟨h0, hp, hold, hs⟩

theorem clonesFlattened_iff_cellLoop :
    ∃ ce₀ ce ce' S header' old, cellStart false = some (ce₀, ce, ce', S, header', old) ∧
    (∀ st a st', flattenAccess st a = some st' → Round st a st') ∧
    (ClonesFlattened ce' (splitReturnBlocks ce'.blocks S) header' old ↔
      AddressesInRegion ce' (splitReturnBlocks ce'.blocks S) ∧
      ((cloneSevered ce' (splitReturnBlocks ce'.blocks S) header' old).isSome = true →
        NoInputFlattened ce' (splitReturnBlocks ce'.blocks S))) := by
  have hrun : ((cellStart false).bind fun r => if 2 ∈ r.2.1.blocks then some r else none).isSome = true := by decide
  obtain ⟨r, hr⟩ := Option.isSome_iff_exists.mp hrun
  obtain ⟨⟨ce₀, ce, ce', S, header', old⟩, hstart, hr⟩ := Option.bind_eq_some_iff.mp hr
  split at hr
  · next hheader =>
    obtain ⟨h0, hp, hold, hs⟩ := cellStart_spec hstart
    exact ⟨ce₀, ce, ce', S, header', old, hstart,
      clonesFlattened_iff (cellLoop_wf false) h0 (by decide) hp (by decide) hheader hold hs⟩
  · cases hr

/- With the address computed ahead of the loop there is no entry for it: the loop, which could be cloned
without flattening, cannot be with it. -/
theorem cellLoop_hoisted : ∃ ce₀ ce ce' S header' old, cellStart true = some (ce₀, ce, ce', S, header', old) ∧
    ¬ ClonesFlattened ce' (splitReturnBlocks ce'.blocks S) header' old ∧
    (cloneLoop sumArgs (cellLoop true) []).isSome = true ∧ cloneLoop cellArgs (cellLoop true) [] = none := by
  have hrun : ((cellStart true).bind fun r =>
      if [14] <+: r.2.2.1.toFlatten ∧ ((accessGEP (cloneBlocks (splitReturnBlocks r.2.2.1.blocks r.2.2.2.1)
        r.2.2.1.blocks.elems r.2.2.2.2.2.id) 14).any fun ptr =>
          ((cloneMap (splitReturnBlocks r.2.2.1.blocks r.2.2.2.1) r.2.2.1.blocks.elems).val ptr.val).isNone) = true
      then some r else none).isSome = true := by decide
  obtain ⟨r, hr⟩ := Option.isSome_iff_exists.mp hrun
  obtain ⟨⟨ce₀, ce, ce', S, header', old⟩, hstart, hr⟩ := Option.bind_eq_some_iff.mp hr
  split at hr
  · next hmiss =>
    obtain ⟨hfirst, hany⟩ := hmiss
    refine ⟨ce₀, ce, ce', S, header', old, hstart, fun h => ?_, by decide, by decide⟩
    obtain ⟨ptr, hptr, hnone⟩ := (Option.any_eq_true _ _).mp hany
    have hentry := h.1.entry [] 14 _ ⟨List.nil_prefix, rfl⟩ hfirst ptr hptr
    exact Option.not_isSome_iff_eq_none.mpr (Option.isNone_iff_eq_none.mp hnone) hentry
  · cases hr

end Region

end Atrox
