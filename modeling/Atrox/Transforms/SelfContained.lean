import Atrox.Transforms.ExitDominance

/-!
# What the new function refers to

The new function is self-contained when its clones keep no operand that is neither an
input nor defined in the region, and outputs that are written back are the region's own.
-/

namespace Atrox
open IR Lib

section Property

/- The value is a constant, a global, or belongs to the function. -/
def IR.Function.Owns (F : Function) : Value → Prop
  | .inst j _ => ∃ x ∈ F.insts, x.id = j
  | .arg f k _ => f = F.id ∧ F.params.length > k
  | _ => True

/- Operands, incoming blocks and successors are the function's own. -/
def SelfContained (F : Function) : Prop :=
  ∀ i ∈ F.insts, (∀ v ∈ i.operands, F.Owns v) ∧
    (i.isPHI = true → ∀ p ∈ i.incoming, ∃ b ∈ F.blocks, b.id = p) ∧ ∀ s ∈ i.succs, ∃ b ∈ F.blocks, b.id = s

/- The operands the clone of an instruction keeps. -/
def cloneOperands (M : Module) (ce : CodeExtractor) (i : Inst) : List Value :=
  if flattens M ce.toFlatten i then flatOperands i else i.operands

/- The value needs no replacement, has one, or has a clone. -/
def Available (M : Module) (ce : CodeExtractor) (v : Value) : Prop :=
  v.isModuleLevel = true ∨ v ∈ ce.inputs ∨ definedInRegion M ce.blocks v = true

/- The scalar output is mapped to a bidirectional input. -/
def WrittenBack (ce : CodeExtractor) (o : Value) : Prop :=
  o.ty.isPointerTy = false ∧ ∃ v ∈ ce.inputs, ce.isBidirectional v = true ∧
    ce.outputs.elems[(ce.inputToOutputMap.lookup v).getD 0]? = some o

/- All that the region needs is available. -/
structure AllAvailable (M : Module) (ce : CodeExtractor) : Prop where
  operands : ∀ i ∈ M.regionInsts ce.blocks.elems, isIgnoredIntrinsic i = false →
    ∀ v ∈ cloneOperands M ce i, Available M ce v
  outputs : ∀ o, WrittenBack ce o → o.isModuleLevel = true ∨ definedInRegion M ce.blocks o = true

theorem cloneOperands_sub {M : Module} {ce : CodeExtractor} {i : Inst} {v : Value}
    (h : v ∈ cloneOperands M ce i) : v ∈ i.operands := by
  unfold cloneOperands at h
  split at h
  · unfold flatOperands at h
    split at h
    · cases h
    · next base idx hops =>
      rw [hops]
      rcases List.mem_cons.mp h with rfl | h
      · exact List.mem_cons_self ..
      · exact List.mem_cons_of_mem _ (List.mem_of_mem_tail (List.mem_reverse.mp (List.mem_of_mem_take h)))
  · exact h

end Property

section Plan
variable {c : CloneCtx} {n : Nat} {s : Plan}

theorem Plan.Has.mono {t : Plan} {v : Value} (h : s.Has c v) (hsub : ∀ i ∈ s.insts, i ∈ t.insts) :
    t.Has c v := by
  rcases h with h | h | ⟨i, hi, rfl⟩
  · exact .inl h
  · exact .inr (.inl h)
  · exact .inr (.inr ⟨i, hsub i hi, rfl⟩)

/- The root uses parameters and its own instructions, and so do the replacements. -/
theorem planRoot_has (h : c.planRoot n = some s) :
    (∀ i ∈ s.insts, (∀ v ∈ i.operands, s.Has c v) ∧ i.isPHI = false ∧ i.succs = []) ∧
      ∀ p ∈ s.subst, (p.1 ∈ c.ce.inputs ∨ p.1 ∈ c.ce.stackAllocas) ∧ s.Has c p.2 ∧ ∀ x, p.2 ≠ .const x := by
  refine planRoot_run (P := fun s =>
    (∀ i ∈ s.insts, (∀ v ∈ i.operands, s.Has c v) ∧ i.isPHI = false ∧ i.succs = []) ∧
      ∀ p ∈ s.subst, (p.1 ∈ c.ce.inputs ∨ p.1 ∈ c.ce.stackAllocas) ∧ s.Has c p.2 ∧ ∀ x, p.2 ≠ .const x)
      ?_ ?_ ?_ h
  · exact ⟨by simp, by simp⟩
  · rintro s op ty operands ⟨h1, h2⟩ hnew
    have hsub : ∀ i ∈ s.insts, i ∈ (s.insertInst op ty operands).2.insts := fun i hi =>
      List.mem_append_left _ hi
    refine ⟨fun i hi => ?_, fun p hp => ⟨(h2 p hp).1, (h2 p hp).2.1.mono hsub, (h2 p hp).2.2⟩⟩
    rcases List.mem_append.mp hi with hi | hi
    · exact ⟨fun v hv => ((h1 i hi).1 v hv).mono hsub, (h1 i hi).2⟩
    · rw [List.mem_singleton.mp hi]
      refine ⟨fun v hv => (hnew.has v hv).mono hsub, ?_, rfl⟩
      rcases hnew.isAccess with rfl | rfl | rfl | rfl <;> rfl
  · rintro s src dst ⟨h1, h2⟩ hpair
    refine ⟨h1, fun p hp => ?_⟩
    rcases List.mem_append.mp hp with hp | hp
    · exact h2 p hp
    · rw [List.mem_singleton.mp hp]
      exact ⟨hpair.source, hpair.has, hpair.not_const⟩

/- The value is replaced. -/
def Plan.Replaces (s : Plan) (v : Value) : Prop := ∃ p ∈ s.subst, p.1 = v

theorem Plan.Replaces.append {v : Value} (h : s.Replaces v) {t : Plan} (hs : s.subst <+: t.subst) :
    t.Replaces v := by
  obtain ⟨p, hp, hv⟩ := h
  exact ⟨p, hs.subset hp, hv⟩

theorem replace_replaces (s : Plan) (v dst : Value) : (s.replace v dst).Replaces v :=
  ⟨(v, dst), List.mem_append_right _ (List.mem_singleton_self _), rfl⟩

/- A loop that replaces one value in each round replaces them all, and keeps earlier pairs. -/
theorem foldlM_replaces {α : Type} {step : Plan → α → Option Plan} (key : α → Value)
    (hstep : ∀ s a s', step s a = some s' → ∃ (t : Plan) (dst : Value), s.subst = t.subst ∧
      s' = t.replace (key a) dst)
    (as : List α) {s s' : Plan} (h : as.foldlM step s = some s') :
    s.subst <+: s'.subst ∧ ∀ a ∈ as, s'.Replaces (key a) := by
  refine foldlM_run (P := fun pre t => s.subst <+: t.subst ∧ ∀ a ∈ pre, t.Replaces (key a)) as ?_
    ⟨List.prefix_rfl, by simp⟩ h
  rintro pre a post t t' - ⟨h1, h2⟩ hst
  obtain ⟨u, dst, hu, rfl⟩ := hstep t a t' hst
  have hpre : t.subst <+: (u.replace (key a) dst).subst := by
    rw [hu]
    exact List.prefix_append _ _
  refine ⟨h1.trans hpre, fun b hb => ?_⟩
  rcases List.mem_append.mp hb with hb | hb
  · exact (h2 b hb).append hpre
  · rw [List.mem_singleton.mp hb]
    exact replace_replaces u _ dst

/- One round of each loop replaces its value and no other. -/
theorem planInput_replace {s s' : Plan} {vi : Value × Nat} (h : c.planInput s vi = some s') :
    ∃ (t : Plan) (dst : Value), s.subst = t.subst ∧ s' = t.replace vi.1 dst := by
  rcases planInput_inv h with ⟨-, _, gep, ld, t₁, t₂, -, hgep, hld, rfl⟩ | ⟨-, r, -, rfl⟩
  · cases hgep
    cases hld
    refine ⟨_, _, ?_, rfl⟩
    rfl
  · exact ⟨s, r, rfl, rfl⟩

theorem planBidirectional_replace {s s' : Plan} {v : Value} (h : c.planBidirectional s v = some s') :
    ∃ (t : Plan) (dst : Value), s.subst = t.subst ∧ s' = t.replace v dst := by
  obtain ⟨r, -, ⟨-, rfl⟩ | ⟨-, ld, t, hld, rfl⟩⟩ := planBidirectional_inv h
  · exact ⟨s, r.2, rfl, rfl⟩
  · cases hld
    refine ⟨_, _, ?_, rfl⟩
    rfl

theorem planStackAlloca_replace {s s' : Plan} {vi : Value × Nat} (h : c.planStackAlloca s vi = some s') :
    ∃ (t : Plan) (dst : Value), s.subst = t.subst ∧ s' = t.replace vi.1 dst := by
  obtain ⟨slot, t₁, u, ld, t₃, hslot, hu, hld, rfl⟩ := planStackAlloca_inv h
  cases hslot
  cases hld
  rcases hu with rfl | ⟨init, rfl⟩
  · refine ⟨_, _, ?_, rfl⟩
    rfl
  · refine ⟨_, _, ?_, rfl⟩
    rfl

/- By-value inputs, bidirectional ones and stack slots are all replaced. -/
theorem planRoot_replaces (h : c.planRoot n = some s) :
    (∀ v ∈ c.usedInputs, s.Replaces v) ∧ (∀ v ∈ c.bidirectional, s.Replaces v) ∧
      ∀ v ∈ c.ce.stackAllocas, s.Replaces v := by
  obtain ⟨s₁, h1, h⟩ := Option.bind_eq_some_iff.mp h
  obtain ⟨s₂, h2, h3⟩ := Option.bind_eq_some_iff.mp h
  obtain ⟨-, r1⟩ := foldlM_replaces Prod.fst (fun _ _ _ => planInput_replace) _ h1
  obtain ⟨p2, r2⟩ := foldlM_replaces id (fun _ _ _ => planBidirectional_replace) _ h2
  obtain ⟨p3, r3⟩ := foldlM_replaces Prod.fst (fun _ _ _ => planStackAlloca_replace) _ h3
  have hzip : ∀ {l : List Value} {v : Value}, v ∈ l → ∃ k, (v, k) ∈ l.zipIdx := by
    intro l v hv
    obtain ⟨k, hk, rfl⟩ := List.mem_iff_getElem.mp hv
    exact ⟨k, List.mk_mem_zipIdx_iff_getElem?.mpr (List.getElem?_eq_getElem hk)⟩
  refine ⟨fun v hv => ?_, fun v hv => (r2 v hv).append p3, fun v hv => ?_⟩
  · obtain ⟨k, hk⟩ := hzip hv
    exact (r1 (v, k) hk).append (p2.trans p3)
  · obtain ⟨k, hk⟩ := hzip hv
    exact r3 (v, k) hk

/- Instructions of the exit plan are no PHIs and have no successors. -/
theorem planExit_plain {t : Plan} (h : c.planExit n = some t) : ∀ i ∈ t.insts, i.isPHI = false ∧ i.succs = [] := by
  refine planExit_run (P := fun t : Plan => ∀ i ∈ t.insts, i.isPHI = false ∧ i.succs = []) (by simp) ?_ h
  intro s v r hs _ _ _ i hi
  rcases List.mem_append.mp hi with hi | hi
  · exact hs i hi
  · rw [List.mem_singleton.mp hi]
    exact ⟨rfl, rfl⟩

end Plan

section PHIs
variable {M : Module} {accesses : List InstId}

theorem Piece.isPHI {i : Inst} {is : List Inst} {v : Option Value} (h : Piece M accesses i is v) :
    ∀ j ∈ is, j.isPHI = i.isPHI := by
  intro j hj
  cases h with
  | copy =>
    rw [List.mem_singleton.mp hj]
    rfl
  | flat base r idx n new _ hop _ _ hnew =>
    obtain ⟨hclosed, -⟩ := flattenGEP_closed (S := fun _ => True) (fun _ => trivial) trivial
      (fun _ _ => trivial) hnew
    have hi : i.isPHI = false := by rw [Inst.isPHI, hop]; rfl
    rw [hi, Inst.isPHI]
    rcases hclosed.ops j hj with h | h | h | h <;> rw [h] <;> rfl

theorem expand_phisFirst {g : Inst → List Inst} {b : Block} (h : PhisFirst b.insts)
    (hg : ∀ i ∈ b.insts, ∀ j ∈ g i, j.isPHI = i.isPHI) : PhisFirst (expand M.nextId g b).insts := by
  obtain ⟨ps, rest, hsplit, hp, hr⟩ := h
  refine ⟨ps.flatMap g, rest.flatMap g, ?_, ?_, ?_⟩
  · simp only [expand, hsplit, List.flatMap_append]
  · intro j hj
    obtain ⟨i, hi, hji⟩ := List.mem_flatMap.mp hj
    rw [hg i (by simp [hsplit, hi]) j hji]
    exact hp i hi
  · intro j hj
    obtain ⟨i, hi, hji⟩ := List.mem_flatMap.mp hj
    rw [hg i (by simp [hsplit, hi]) j hji]
    exact hr i hi

/- A PHI of a finished clone, in the header and elsewhere. -/
theorem finishBlock_phi {c : CloneCtx} {σ : List (Value × Value)} {vm : ValueMap} {cloneHeader : BlockId}
    {b : Block} (h : PhisFirst b.insts) {u : Inst} (hu : u ∈ (finishBlock c σ vm cloneHeader b).insts)
    (hphi : u.isPHI = true) :
    (b.id ≠ cloneHeader → ∃ x ∈ b.insts, u = rewriteInst c σ vm x) ∧
    (b.id = cloneHeader → ∀ p ∈ u.incoming, p = c.root ∨ p = c.exit ∨ p ∈ c.clones) := by
  have hu' : u ∈ (rewriteBlock c σ vm cloneHeader b).insts := List.mem_of_mem_filter hu
  unfold rewriteBlock at hu'
  dsimp only at hu'
  constructor
  · intro hne
    rw [if_neg hne] at hu'
    obtain ⟨x, hx, rfl⟩ := List.mem_map.mp hu'
    exact ⟨x, hx, rfl⟩
  · intro he p hp
    rw [if_pos he] at hu'
    rcases List.mem_append.mp hu' with hm | hm
    · obtain ⟨x, -, rfl⟩ := List.mem_map.mp hm
      obtain ⟨q, -, rfl⟩ := List.mem_map.mp hp
      split
      · next hin =>
        simp only [Bool.or_eq_true, decide_eq_true_eq] at hin
        rcases hin with (hin | hin) | hin
        · exact .inl hin
        · exact .inr (.inl hin)
        · exact .inr (.inr hin)
      · exact .inl rfl
    · -- behind the first instruction that is no PHI there is none
      simp only [Block.mapInsts, List.dropWhile_map] at hm
      obtain ⟨x, hx, rfl⟩ := List.mem_map.mp hm
      have hno := (phisFirst_iff b.insts).mp h x hx
      rw [show (rewriteInst c σ vm x).isPHI = x.isPHI from rfl, hno] at hphi
      cases hphi

end PHIs

/- What the region is like when it is cloned. -/
structure CloneReady (M : Module) (ce : CodeExtractor) (header : BlockId) : Prop where
  inputs : ∀ v ∈ ce.inputs, v.below M.nextId
  slots : ∀ v ∈ ce.stackAllocas, v ∈ ce.inputs
  accesses : ∀ a ∈ ce.toFlatten, M.nextId > a
  typed : ∀ i ∈ M.regionInsts ce.blocks.elems, ∀ v ∈ i.operands, v ∉ ce.inputs →
    definedInRegion M ce.blocks v = true → ∃ x ∈ M.regionInsts ce.blocks.elems, v = x.val
  incoming : ∀ b ∈ M.region ce.blocks.elems, b.id ≠ header → ∀ i ∈ b.insts, i.isPHI = true →
    ∀ p ∈ i.incoming, p ∈ ce.blocks
  phisFirst : ∀ b ∈ M.region ce.blocks.elems, PhisFirst b.insts
  scalar : ∀ o ∈ ce.outputs, o.ty.isPointerTy = false → o.below M.nextId ∧
    (definedInRegion M ce.blocks o = true → ∃ x ∈ M.regionInsts ce.blocks.elems, o = x.val)

section Owns
variable {ce : CodeExtractor} {M : Module} {header : BlockId} {old : Function}
  (k : Cloned ce M header old)

theorem Cloned.params_length : k.newFunction.params.length = k.ctx.params.length := by
  have hparams : k.newFunction.params = k.ctx.paramsOf M := rfl
  rw [hparams, CloneCtx.paramsOf]
  split
  · rw [List.length_map]
  · next hagg =>
    have hctx : k.ctx.params = paramTypes k.ctx.ce.aggregateArgs k.ctx.usedInputs
        k.ctx.ce.outputs.elems := rfl
    rw [hctx]
    simp only [paramTypes, hagg, Bool.false_eq_true, if_false, List.length_zipWith, List.length_append,
      List.length_map, Nat.min_self]

/- Values a plan has are the new function's. -/
theorem Cloned.owns_has {v : Value} (h : k.root.Has k.ctx v) : k.newFunction.Owns v := by
  rcases h with ⟨x, rfl⟩ | ⟨i, t, hi, rfl⟩ | ⟨i, hi, rfl⟩
  · trivial
  · refine ⟨rfl, ?_⟩
    rw [k.params_length]
    exact (List.getElem?_eq_some_iff.mp hi).1
  · exact ⟨i, k.mem_insts.mpr (.inl (List.mem_append_left _ hi)), rfl⟩

/- Values with numbers from the counter on, and module-level ones, have no entry in `VMap`. -/
theorem Cloned.vm_none {v : Value} (h : definedInRegion M ce.blocks v = false) : k.vm.val v = none := by
  cases hv : k.vm.val v with
  | none => rfl
  | some w =>
    have hd := k.vm_isSome.mp (show (k.vm.val v).isSome = true by rw [hv]; rfl)
    rw [h] at hd
    cases hd

include k in
theorem Cloned.definedIn_lt {j : InstId} (h : M.definedIn ce.blocks.elems j = true) : M.nextId > j := by
  obtain ⟨i, hi, rfl⟩ := (definedIn_iff k.wf.toIds).mp h
  exact k.wf.insts_lt i (regionInsts_sub k.wf.toIds hi)

theorem Cloned.has_undefined {v : Value} (h : k.root.Has k.ctx v) : definedInRegion M ce.blocks v = false := by
  have hn := k.numbers.nextId_ge
  rcases h with ⟨x, rfl⟩ | ⟨i, t, hi, rfl⟩ | ⟨i, hi, rfl⟩
  · rfl
  · rfl
  · have hge := (planRoot_from k.root_eq).2 i hi
    cases hd : definedInRegion M ce.blocks i.val with
    | false => rfl
    | true =>
      have := k.definedIn_lt hd
      omega

theorem moduleLevel_undefined {v : Value} (h : v.isModuleLevel = true) (blocks : SetVector BlockId) :
    definedInRegion M blocks v = false := by
  cases v with
  | inst i t => cases h
  | _ => rfl

theorem moduleLevel_owns {v : Value} (h : v.isModuleLevel = true) (F : Function) : F.Owns v := by
  cases v with
  | inst i t => cases h
  | arg f i t => cases h
  | _ => trivial

/- What is put in stays: it is no input. -/
theorem Cloned.subst_apart (hin : ∀ v ∈ ce.inputs, v.below M.nextId) (hslots : ∀ v ∈ ce.stackAllocas, v ∈ ce.inputs) :
    ∀ p ∈ k.root.subst, ∀ q ∈ k.root.subst, q.1 ≠ p.2 := by
  obtain ⟨-, hsub⟩ := planRoot_has k.root_eq
  have hn := k.numbers.nextId_ge
  intro p hp q hq he
  obtain ⟨-, hhas, hconst⟩ := hsub p hp
  have hq' : q.1 ∈ ce.inputs := by
    rcases (hsub q hq).1 with h | h
    · exact h
    · exact hslots _ h
  have hbelow := hin _ hq'
  rw [he] at hbelow
  rcases hhas with ⟨x, hx⟩ | ⟨i, t, -, hx⟩ | ⟨i, hi, hx⟩
  · exact hconst x hx
  · rw [hx] at hbelow
    have hb : M.nextId > k.n := hbelow
    omega
  · rw [hx] at hbelow
    have hb : M.nextId > i.id := hbelow
    have := (planRoot_from k.root_eq).2 i hi
    omega

/- Every input is replaced, and what is put in stays. -/
theorem Cloned.subst_pair (hin : ∀ v ∈ ce.inputs, v.below M.nextId) (hslots : ∀ v ∈ ce.stackAllocas, v ∈ ce.inputs)
    {v : Value} (hv : v ∈ ce.inputs) :
    ∃ p ∈ k.root.subst, p.1 = v ∧ applySubst k.root.subst v = p.2 := by
  obtain ⟨hpure, hbid, hslot⟩ := planRoot_replaces k.root_eq
  obtain ⟨p, hp, rfl⟩ : k.root.Replaces v := by
    by_cases hb : ce.isBidirectional v = true
    · exact hbid v (k.mem_bidirectional.mpr ⟨hv, hb⟩)
    · by_cases hs : v ∈ ce.stackAllocas
      · exact hslot v hs
      · refine hpure v (SetVector.mem_filter.mpr ⟨hv, ?_⟩)
        have hio : ce.isInputOnly v = true := by
          simp [CodeExtractor.isInputOnly, hb, hs]
        exact hio
  exact applySubst_pair (List.mem_map_of_mem hp) (k.subst_apart hin hslots)

theorem Cloned.subst_input (hr : CloneReady M ce header) {v : Value} (hv : v ∈ ce.inputs) :
    k.root.Has k.ctx (applySubst k.root.subst v) := by
  obtain ⟨p, hp, -, he⟩ := k.subst_pair hr.inputs hr.slots hv
  rw [he]
  exact ((planRoot_has k.root_eq).2 p hp).2.1

theorem Cloned.subst_other (hslots : ∀ v ∈ ce.stackAllocas, v ∈ ce.inputs) {v : Value} (hv : v ∉ ce.inputs) :
    applySubst k.root.subst v = v := by
  refine applySubst_of_notMem fun p hp he => hv (he ▸ ?_)
  rcases ((planRoot_has k.root_eq).2 p hp).1 with h | h
  · exact h
  · exact hslots _ h

end Owns

section Main
variable {ce : CodeExtractor} {M : Module} {header : BlockId} {old : Function}
  (k : Cloned ce M header old) {g : Inst → List Inst}

/- What an operand of a clone becomes. -/
def Cloned.image (v : Value) : Value :=
  (k.vm.val (applySubst k.root.subst v)).getD (applySubst k.root.subst v)

theorem Cloned.image_of_undefined (hslots : ∀ v ∈ ce.stackAllocas, v ∈ ce.inputs) {v : Value} (hv : v ∉ ce.inputs)
    (h : definedInRegion M ce.blocks v = false) : k.image v = v := by
  rw [Cloned.image, k.subst_other hslots hv, k.vm_none h, Option.getD_none]

theorem Cloned.owns_input (hr : CloneReady M ce header) {v : Value} (hv : v ∈ ce.inputs) :
    k.newFunction.Owns (k.image v) := by
  have hhas := k.subst_input hr hv
  rw [Cloned.image, k.vm_none (k.has_undefined hhas), Option.getD_none]
  exact k.owns_has hhas

theorem Cloned.finish_mem (hg : CloneShape M ce.blocks.elems ce.toFlatten k.clones k.vm g) {b : Block}
    (hb : b ∈ M.region ce.blocks.elems) {u : Inst} (hu : u ∈ (k.finish g b).insts) :
    u ∈ k.newFunction.insts := by
  refine List.mem_flatMap.mpr ⟨k.finish g b, ?_, hu⟩
  rw [k.blocks_eq hg]
  exact List.mem_append_right _ (List.mem_map_of_mem hb)

/- An instruction of a clone is there when it is used. -/
theorem Cloned.owns_clone (hg : CloneShape M ce.blocks.elems ce.toFlatten k.clones k.vm g)
    (herase : eraseAll k.beforeErase (toRemove (k.functionWith rewriteBlock)) = some k.result)
    {x y u : Inst} (hx : x ∈ M.regionInsts ce.blocks.elems) (hy : y ∈ g x) (hu : u ∈ k.newFunction.insts)
    (huse : y.val ∈ u.operands) : k.newFunction.Owns y.val := by
  obtain ⟨b, hb, hxb⟩ := List.mem_flatMap.mp hx
  have hyb : y ∈ (expand M.nextId g b).insts := List.mem_flatMap.mpr ⟨x, hxb, hy⟩
  have huse' : u.uses y.id = true := List.any_eq_true.mpr ⟨y.val, huse, by simp [Inst.val, Value.isInst]⟩
  obtain ⟨w, hw, hid⟩ := List.any_eq_true.mp (k.has_finish hg herase hb hyb hu huse')
  exact ⟨w, k.finish_mem hg hb hw, by simpa using hid⟩

theorem Cloned.owns_defined (hg : CloneShape M ce.blocks.elems ce.toFlatten k.clones k.vm g)
    (herase : eraseAll k.beforeErase (toRemove (k.functionWith rewriteBlock)) = some k.result)
    (hr : CloneReady M ce header) {x u : Inst} (hx : x ∈ M.regionInsts ce.blocks.elems)
    (hin : x.val ∉ ce.inputs) (hu : u ∈ k.newFunction.insts) (huse : k.image x.val ∈ u.operands) :
    k.newFunction.Owns (k.image x.val) := by
  obtain ⟨y, hy, hval⟩ := (hg.piece x hx).val
  have himg : k.image x.val = y.val := by
    rw [Cloned.image, k.subst_other hr.slots hin, hval, Option.getD_some]
  rw [himg] at huse ⊢
  exact k.owns_clone hg herase hx hy hu huse

/- Operands of a rewritten clone. -/
theorem Cloned.clone_operands {u x : Inst} (h : u.core = (rewriteInst k.ctx k.root.subst k.vm x).core) :
    u.operands = x.operands.map k.image := by
  rw [operands_of_core h]
  simp only [rewriteInst, remapInstruction, CloneCtx.divert, substInst, List.map_map]
  rfl

theorem Cloned.owns_operand (hg : CloneShape M ce.blocks.elems ce.toFlatten k.clones k.vm g)
    (herase : eraseAll k.beforeErase (toRemove (k.functionWith rewriteBlock)) = some k.result)
    (hr : CloneReady M ce header) (hall : AllAvailable M ce) {b : Block}
    (hb : b ∈ M.region ce.blocks.elems) {u : Inst} (hu : u ∈ (k.finish g b).insts) :
    ∀ v ∈ u.operands, k.newFunction.Owns v := by
  obtain ⟨x, hx, hig, hcore⟩ := finishBlock_mem _ _ _ _ hu
  obtain ⟨i, hi, hxi⟩ := List.mem_flatMap.mp hx
  have him : i ∈ M.regionInsts ce.blocks.elems := List.mem_flatMap.mpr ⟨b, hb, hi⟩
  have huF := k.finish_mem hg hb hu
  have hops := k.clone_operands hcore
  intro v hv
  have hv' := hv
  rw [hops] at hv'
  obtain ⟨w, hw, rfl⟩ := List.mem_map.mp hv'
  by_cases hin : w ∈ ce.inputs
  · exact k.owns_input hr hin
  have hconst : ∀ c, w = .const c → k.newFunction.Owns (k.image w) := by
    rintro c rfl
    rw [k.image_of_undefined hr.slots hin rfl]
    trivial
  have hpiece := hg.piece i him
  rcases hpiece.operands x hxi w hw with hwi | ⟨c, hc⟩ | ⟨y, hy, rfl, hge⟩
  · -- an operand of the instruction: the clone keeps it, so it is available
    have hkept : (∃ c, w = .const c) ∨ (isIgnoredIntrinsic i = false ∧ w ∈ cloneOperands M ce i) := by
      generalize hgi : g i = is at hpiece hxi
      generalize k.vm.val i.val = o at hpiece
      cases hpiece with
      | copy hno =>
        rw [List.mem_singleton.mp hxi] at hig
        rw [cloneOperands, hno]
        exact .inr ⟨hig, hwi⟩
      | flat base r idx n new hyes hop hopsi hn hnew =>
        by_cases hwn : w.New n
        · rcases hwn with hwn | ⟨j, t, rfl, hj⟩
          · exact .inl hwn
          · have hlt := k.wf.operands_lt i (regionInsts_sub k.wf.toIds him) j t hwi
            omega
        · have hu := (flattenGEP_uses hnew hwn).mp ⟨x, hxi, hw⟩
          refine .inr ⟨by simp [isIgnoredIntrinsic, Opcode.intrinsic?, hop], ?_⟩
          rw [cloneOperands, hyes, if_pos rfl, flatOperands, hopsi]
          exact List.mem_cons.mpr hu
    rcases hkept with ⟨c, hc⟩ | ⟨hig', hkept⟩
    · exact hconst c hc
    · rcases hall.operands i him hig' w hkept with hm | hm | hm
      · rw [k.image_of_undefined hr.slots hin (moduleLevel_undefined hm _)]
        exact moduleLevel_owns hm _
      · exact absurd hm hin
      · obtain ⟨z, hz, rfl⟩ := hr.typed i him w hwi hin hm
        exact k.owns_defined hg herase hr hz hin huF hv
  · exact hconst c hc
  · have hund : definedInRegion M ce.blocks y.val = false := by
      cases hd : definedInRegion M ce.blocks y.val with
      | false => rfl
      | true =>
        have := k.definedIn_lt hd
        omega
    rw [k.image_of_undefined hr.slots hin hund] at hv ⊢
    exact k.owns_clone hg herase him hy huF hv

theorem Cloned.block_of_target (hg : CloneShape M ce.blocks.elems ce.toFlatten k.clones k.vm g) (s : BlockId) :
    ∃ b ∈ k.newFunction.blocks, b.id = k.target s := by
  rw [k.blocks_eq hg]
  unfold Cloned.target
  split
  · next hs =>
    obtain ⟨y, hy, rfl⟩ := k.exist s hs
    exact ⟨k.finish g y, List.mem_append_right _ (List.mem_map_of_mem ((mem_region k.wf.toIds).mpr ⟨hy, hs⟩)),
      k.finish_id g y⟩
  · exact ⟨exitBlock k.ctx k.root k.exit k.vm, by simp, rfl⟩

theorem Cloned.block_of_ctx (hg : CloneShape M ce.blocks.elems ce.toFlatten k.clones k.vm g) {p : BlockId}
    (hp : p = k.ctx.root ∨ p = k.ctx.exit ∨ p ∈ k.ctx.clones) : ∃ b ∈ k.newFunction.blocks, b.id = p := by
  rcases hp with rfl | rfl | hp
  · rw [k.blocks_eq hg]
    exact ⟨rootBlock k.ctx k.root (M.nextId + header), by simp, rfl⟩
  · rw [k.blocks_eq hg]
    exact ⟨exitBlock k.ctx k.root k.exit k.vm, by simp, rfl⟩
  · obtain ⟨s, hs, rfl⟩ := List.mem_map.mp hp
    have hs' : s ∈ ce.blocks := hs
    obtain ⟨b, hb, hid⟩ := k.block_of_target hg s
    rw [Cloned.target, if_pos hs'] at hid
    exact ⟨b, hb, hid⟩

theorem Cloned.owns_edges (hg : CloneShape M ce.blocks.elems ce.toFlatten k.clones k.vm g)
    (hr : CloneReady M ce header) {b : Block} (hb : b ∈ M.region ce.blocks.elems) {u : Inst}
    (hu : u ∈ (k.finish g b).insts) :
    (u.isPHI = true → ∀ p ∈ u.incoming, ∃ c ∈ k.newFunction.blocks, c.id = p) ∧
      ∀ s ∈ u.succs, ∃ c ∈ k.newFunction.blocks, c.id = s := by
  constructor
  · intro hphi p hp
    have hfirst : PhisFirst (expand M.nextId g b).insts := expand_phisFirst (hr.phisFirst b hb) fun i hi =>
      (hg.piece i (List.mem_flatMap.mpr ⟨b, hb, hi⟩)).isPHI
    obtain ⟨hother, hheader⟩ := finishBlock_phi hfirst hu hphi
    by_cases hid : b.id = header
    · have hid' : (expand M.nextId g b).id = M.nextId + header := by rw [← hid]; rfl
      exact k.block_of_ctx hg (hheader hid' p hp)
    · obtain ⟨x, hx, rfl⟩ := hother fun he => hid (Nat.add_left_cancel he)
      obtain ⟨i, hi, hxi⟩ := List.mem_flatMap.mp hx
      have hpiece := hg.piece i (List.mem_flatMap.mpr ⟨b, hb, hi⟩)
      have hiphi : i.isPHI = true := (hpiece.isPHI x hxi).symm.trans hphi
      obtain ⟨hcopy, -⟩ := hpiece.of_not_gep (by
        intro hop
        rw [Inst.isPHI, hop] at hiphi
        cases hiphi)
      rw [hcopy, List.mem_singleton] at hxi
      subst hxi
      obtain ⟨q, hq, rfl⟩ := List.mem_map.mp hp
      have hq' : q ∈ ce.blocks := hr.incoming b hb hid i hi hiphi q hq
      obtain ⟨c, hc, hcid⟩ := k.block_of_target hg q
      refine ⟨c, hc, ?_⟩
      have hqe : q ∈ ce.blocks.elems := hq'
      rw [hcid, Cloned.target, if_pos hq']
      simp only [k.numbers.block, cloneMap, if_pos hqe, Option.getD_some]
  · intro s hs
    obtain ⟨x, -, -, hcore⟩ := finishBlock_mem _ _ _ _ hu
    rw [succs_of_core hcore, k.rewrite_succs] at hs
    obtain ⟨q, -, rfl⟩ := List.mem_map.mp hs
    exact k.block_of_target hg q

/- The store for an output that is written back. -/
theorem Cloned.writtenBack_store {o : Value} (h : WrittenBack ce o) :
    ∃ st ∈ (exitBlock k.ctx k.root k.exit k.vm).insts, k.stored o ∈ st.operands := by
  obtain ⟨hty, v, hv, hvb, hidx⟩ := h
  obtain ⟨outv, arg, hov, hstore⟩ := planExit_stored k.exit_eq (k.mem_bidirectional.mpr ⟨hv, hvb⟩)
  have hout := (outputOf_spec hov).1
  obtain rfl : o = outv := Option.some.inj (hidx.symm.trans hout)
  obtain ⟨s, hs, -, hops⟩ := hstore hty
  refine ⟨remapInstruction k.vm s, List.mem_append_left _ (List.mem_map_of_mem hs), ?_⟩
  simp only [remapInstruction, hops, List.map_cons]
  exact List.mem_cons_self ..

/- An instruction of the exit stores an output that is written back. -/
theorem Cloned.exit_operands {st : Inst} (hst : st ∈ (exitBlock k.ctx k.root k.exit k.vm).insts) {w : Value}
    (hw : w ∈ st.operands) : (∃ o, WrittenBack ce o ∧ o ∈ ce.outputs ∧ w = k.stored o) ∨ k.root.Has k.ctx w := by
  rcases List.mem_append.mp hst with hm | hm
  · obtain ⟨s, hs, rfl⟩ := List.mem_map.mp hm
    obtain ⟨-, v, hv, o, arg, hov, hty, hops⟩ := planExit_stores k.exit_eq s hs
    obtain ⟨hvin, hvb⟩ := k.mem_bidirectional.mp hv
    have hout := (outputOf_spec hov).1
    simp only [remapInstruction, hops, List.map_cons, List.map_nil, List.mem_cons, List.not_mem_nil,
      or_false] at hw
    rcases hw with rfl | rfl
    · exact .inl ⟨o, ⟨hty, v, hvin, hvb, hout⟩, List.mem_of_getElem? hout, rfl⟩
    · have hhas := outputOf_has k.root hov
      rw [k.vm_none (k.has_undefined hhas), Option.getD_none]
      exact .inr hhas
  · rw [List.mem_singleton.mp hm] at hw
    cases hw

/- A value that is not available stays what it is, and the function does not own it. -/
theorem Cloned.not_owns (hr : CloneReady M ce header) {v : Value} (hm : v.isModuleLevel = false)
    (hbelow : v.below M.nextId) : ¬k.newFunction.Owns v := by
  have hn := k.numbers.nextId_ge
  cases v with
  | inst j t =>
    rintro ⟨x, hx, hid⟩
    have hj : M.nextId > j := hbelow
    obtain ⟨g, hg⟩ := k.shape hr.accesses
    have hge : M.nextId ≤ x.id := by
      rcases k.mem_insts.mp hx with hx | hx | ⟨b, hb, hx⟩
      · have := (root_insts k.root_eq rfl (M.nextId + header) x hx).1
        omega
      · have := (exit_insts k.vm k.root_eq k.exit_eq x hx).1
        omega
      · obtain ⟨y, hy, -, hcore⟩ := finishBlock_mem _ _ _ _ hx
        rw [rewriteInst_core_id hcore]
        exact k.numbers.insts_ge y (List.mem_flatMap.mpr ⟨b, hb, hy⟩)
    have hxj : x.id = j := hid
    omega
  | arg f i t =>
    rintro ⟨hf, -⟩
    have hlt : M.nextId > f := hbelow
    rw [show f = k.n from hf] at hlt
    omega
  | _ => cases hm

/- An operand that the clone keeps is used by a clone. -/
theorem Cloned.uses_cloneOperand (hg : CloneShape M ce.blocks.elems ce.toFlatten k.clones k.vm g) {i : Inst}
    (hi : i ∈ M.regionInsts ce.blocks.elems) (hig : isIgnoredIntrinsic i = false) {v : Value}
    (hv : v ∈ cloneOperands M ce i) (hm : v.isModuleLevel = false) :
    ∃ u ∈ k.newFunction.insts, k.image v ∈ u.operands := by
  have hvi := cloneOperands_sub hv
  have hbelow := k.wf.operands_below i (regionInsts_sub k.wf.toIds hi) v hvi
  obtain ⟨b, hb, hib⟩ := List.mem_flatMap.mp hi
  obtain ⟨x, hx, hxig, hvx⟩ : ∃ x ∈ g i, isIgnoredIntrinsic x = false ∧ v ∈ x.operands := by
    have hpiece := hg.piece i hi
    generalize g i = is at hpiece ⊢
    generalize k.vm.val i.val = o at hpiece
    cases hpiece with
    | copy hflat => exact ⟨_, List.mem_singleton_self _, hig, hvi⟩
    | flat base r idx n new hyes hop hops hn hnew =>
      have hwn : ¬v.New n := by
        rintro (⟨c, rfl⟩ | ⟨j, t, rfl, hj⟩)
        · cases hm
        · have hlt : M.nextId > j := hbelow
          omega
      rw [cloneOperands, hyes, if_pos rfl, flatOperands, hops] at hv
      obtain ⟨x, hx, hvx⟩ := (flattenGEP_uses hnew hwn).mpr (List.mem_cons.mp hv)
      obtain ⟨hclosed, -⟩ := flattenGEP_closed (S := fun _ => True) (fun _ => trivial) trivial
        (fun _ _ => trivial) hnew
      refine ⟨x, hx, ?_, hvx⟩
      rcases hclosed.ops x hx with h | h | h | h <;>
        simp [isIgnoredIntrinsic, Opcode.intrinsic?, h]
  have hxb : x ∈ (expand M.nextId g b).insts := List.mem_flatMap.mpr ⟨i, hib, hx⟩
  obtain ⟨u, hu, hcore⟩ := finishBlock_of_mem k.ctx k.root.subst k.vm (M.nextId + header) hxb hxig
  refine ⟨u, k.finish_mem hg hb hu, ?_⟩
  rw [k.clone_operands hcore]
  exact List.mem_map_of_mem hvx

theorem Cloned.owns_root (hg : CloneShape M ce.blocks.elems ce.toFlatten k.clones k.vm g) {u : Inst}
    (hu : u ∈ (rootBlock k.ctx k.root (M.nextId + header)).insts) :
    (∀ v ∈ u.operands, k.newFunction.Owns v) ∧ u.isPHI = false ∧
      ∀ s ∈ u.succs, ∃ b ∈ k.newFunction.blocks, b.id = s := by
  obtain ⟨hplan, -⟩ := planRoot_has k.root_eq
  rcases List.mem_append.mp hu with hm | hm
  · obtain ⟨hops, hphi, hsuccs⟩ := hplan u hm
    refine ⟨fun v hv => k.owns_has (hops v hv), hphi, fun s hs => ?_⟩
    rw [hsuccs] at hs
    cases hs
  · rw [List.mem_singleton.mp hm]
    refine ⟨fun v hv => absurd hv List.not_mem_nil, rfl, fun s hs => ?_⟩
    rw [List.mem_singleton.mp hs]
    obtain ⟨b, hb, hid⟩ := k.block_of_target hg header
    rw [Cloned.target, if_pos k.header_mem] at hid
    exact ⟨b, hb, hid⟩

/- The exit stores constants, globals and the clones of instructions of the region. -/
theorem Cloned.owns_exit (hg : CloneShape M ce.blocks.elems ce.toFlatten k.clones k.vm g)
    (herase : eraseAll k.beforeErase (toRemove (k.functionWith rewriteBlock)) = some k.result)
    (hr : CloneReady M ce header) (hall : AllAvailable M ce) {u : Inst}
    (hu : u ∈ (exitBlock k.ctx k.root k.exit k.vm).insts) :
    (∀ v ∈ u.operands, k.newFunction.Owns v) ∧ u.isPHI = false ∧ u.succs = [] := by
  refine ⟨fun v hv => ?_, ?_⟩
  · rcases k.exit_operands hu hv with ⟨o, ho, hout, rfl⟩ | hhas
    · rcases hall.outputs o ho with hm | hdef
      · rw [k.stored_out (moduleLevel_undefined hm _)]
        exact moduleLevel_owns hm _
      · obtain ⟨x, hx, rfl⟩ := (hr.scalar o hout ho.1).2 hdef
        obtain ⟨y, hy, hval⟩ := (hg.piece x hx).val
        have hstored : k.stored x.val = y.val := by
          rw [Cloned.stored, hval, Option.getD_some]
        rw [hstored] at hv ⊢
        exact k.owns_clone hg herase hx hy (k.mem_insts.mpr (.inr (.inl hu))) hv
    · exact k.owns_has hhas
  · rcases List.mem_append.mp hu with hm | hm
    · obtain ⟨s, hs, rfl⟩ := List.mem_map.mp hm
      have hst := planExit_plain k.exit_eq s hs
      refine ⟨hst.1, ?_⟩
      simp only [remapInstruction, hst.2, List.map_nil]
    · rw [List.mem_singleton.mp hm]
      exact ⟨rfl, rfl⟩

/- The new function is self-contained exactly when all the region needs is available. -/
theorem Cloned.selfContained_iff (hr : CloneReady M ce header)
    (herase : eraseAll k.beforeErase (toRemove (k.functionWith rewriteBlock)) = some k.result) :
    SelfContained k.newFunction ↔ AllAvailable M ce := by
  obtain ⟨g, hg⟩ := k.shape hr.accesses
  constructor
  · intro hself
    refine ⟨fun i hi hig v hv => ?_, fun o ho => ?_⟩
    · by_contra hno
      simp only [Available, not_or, Bool.not_eq_true] at hno
      obtain ⟨hm, hin, hdef⟩ := hno
      have hbelow := k.wf.operands_below i (regionInsts_sub k.wf.toIds hi) v (cloneOperands_sub hv)
      obtain ⟨u, hu, huv⟩ := k.uses_cloneOperand hg hi hig hv hm
      have howns := (hself u hu).1 _ huv
      rw [k.image_of_undefined hr.slots hin hdef] at howns
      exact k.not_owns hr hm hbelow howns
    · by_contra hno
      simp only [not_or, Bool.not_eq_true] at hno
      obtain ⟨hm, hdef⟩ := hno
      obtain ⟨st, hst, huse⟩ := k.writtenBack_store ho
      have howns := (hself st (k.mem_insts.mpr (.inr (.inl hst)))).1 _ huse
      rw [k.stored_out hdef] at howns
      obtain ⟨hty, v, hv, hvb, hidx⟩ := ho
      exact k.not_owns hr hm (hr.scalar o (List.mem_of_getElem? hidx) hty).1 howns
  · intro hall u hu
    rcases k.mem_insts.mp hu with hu | hu | ⟨c, hc, hu⟩
    · obtain ⟨hops, hphi, hsuccs⟩ := k.owns_root hg hu
      refine ⟨hops, fun h => ?_, hsuccs⟩
      rw [hphi] at h
      cases h
    · obtain ⟨hops, hphi, hsuccs⟩ := k.owns_exit hg herase hr hall hu
      refine ⟨hops, fun h => ?_, fun s hs => ?_⟩
      · rw [hphi] at h
        cases h
      · rw [hsuccs] at hs
        cases hs
    · have hc' : c ∈ (M.region ce.blocks.elems).map (expand M.nextId g) := hg.blocks ▸ hc
      obtain ⟨b, hb, rfl⟩ := List.mem_map.mp hc'
      exact ⟨k.owns_operand hg herase hr hall hb hu, k.owns_edges hg hr hb hu⟩

end Main

end Atrox
