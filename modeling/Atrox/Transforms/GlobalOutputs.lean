import Atrox.Transforms.GlobalScan
import Atrox.Transforms.IteratorInput
import Atrox.Transforms.LostPHIs
import Atrox.Transforms.SeveredGEPs
import Atrox.Transforms.SharedOutputs

/-!
# Globals that the region writes

`cloneFunction` makes a parameter for every output, but it rewrites operands of the clones
only for inputs. What becomes of the GEPs on a global that is an output.
-/

namespace Atrox
open IR Lib

section Sets
variable {M : Module}

/- The region stores through a GEP on the value. -/
def StoredThrough (M : Module) (blocks : SetVector BlockId) (g : Value) : Prop :=
  ∃ gep ∈ regionGeps M blocks, gepPointer gep = some g ∧ hasStore M gep = true

/- There is a load through a GEP of the region on the value, and the GEP is used in the region only. -/
def LoadedThrough (M : Module) (blocks : SetVector BlockId) (g : Value) : Prop :=
  ∃ gep ∈ regionGeps M blocks, gepPointer gep = some g ∧ hasLoad M gep = true ∧ usedOutside M blocks gep = false

theorem global_not_inst {g : Value} (hg : g.isGlobalVariable = true) (i : InstId) (t : Ty) : g ≠ .inst i t := by
  rintro rfl
  cases hg

theorem findAll_output_global {ce : CodeExtractor} {g : Value} (hg : g.isGlobalVariable = true) :
    g ∈ (ce.findAll M).outputs ↔ StoredThrough M ce.blocks g := by
  have hscan := scan_outputs M (globalGeps M ce.blocks) (findInputsOutputs M ce.blocks ∅ ∅) g
  have hnone : g ∉ (findInputsOutputs M ce.blocks ∅ ∅).2 := by
    rw [findOutputs_mem]
    rintro ⟨i, -, rfl, -⟩
    exact global_not_inst hg i.id i.ty rfl
  refine hscan.trans ((or_iff_right hnone).trans ⟨?_, ?_⟩)
  · rintro ⟨gep, hgep, hp, hs⟩
    obtain ⟨hreg, hop⟩ := globalGeps_mem M ce.blocks hgep
    exact ⟨gep, List.mem_filter.mpr ⟨hreg, by simpa using hop⟩, hp, hs⟩
  · rintro ⟨gep, hgep, hp, hs⟩
    exact ⟨gep, (mem_globalGeps M ce.blocks).mpr (.inl ⟨hgep, (onGlobal_iff hp).mpr hg⟩), hp, hs⟩

/- The GEP is an output already when it is used outside the region. -/
theorem findOutputs_gep (hM : M.WF) {ce : CodeExtractor} {gep : Inst} (hgep : gep ∈ regionGeps M ce.blocks) :
    gep.val ∈ (findInputsOutputs M ce.blocks ∅ ∅).2 ↔ usedOutside M ce.blocks gep = true := by
  rw [findOutputs_mem]
  have hreg := (List.mem_filter.mp hgep).1
  constructor
  · rintro ⟨i, hi, he, hu⟩
    have hid : gep.id = i.id := by injection he
    obtain rfl := inst_unique hM.toIds (regionInsts_sub hM.toIds hreg) (regionInsts_sub hM.toIds hi) hid
    exact hu
  · exact fun hu => ⟨gep, hreg, rfl, hu⟩

theorem findAll_input_global (hM : M.WF) {ce : CodeExtractor} {g : Value} (hg : g.isGlobalVariable = true) :
    g ∈ (ce.findAll M).inputs ↔ LoadedThrough M ce.blocks g := by
  set r := findInputsOutputs M ce.blocks ∅ ∅ with hr
  have hnone : g ∉ r.1 := by
    rw [hr, findInputs_mem]
    rintro ⟨i, -, -, hcaller⟩
    cases g with
    | global _ _ _ => cases hcaller
    | _ => cases hg
  change g ∈ ((globalGeps M ce.blocks).foldl (findGlobalStep M) r).1 ↔ _
  constructor
  · intro hin
    rcases scan_inputs M _ r hin with hold | ⟨gep, hgep, hp, hl, hno⟩
    · exact absurd hold hnone
    · obtain ⟨hreg, hop⟩ := globalGeps_mem M ce.blocks hgep
      have hgm : gep ∈ regionGeps M ce.blocks := List.mem_filter.mpr ⟨hreg, by simpa using hop⟩
      rw [hr, findOutputs_gep hM hgm, Bool.not_eq_true] at hno
      exact ⟨gep, hgm, hp, hl, hno⟩
  · rintro ⟨gep, hgep, hp, hl, huse⟩
    rw [globalGeps_eq, List.foldl_append]
    refine scan_inputs_sub M _ _ (scan_inputs_of_load M _ r
      (List.mem_filter.mpr ⟨hgep, (onGlobal_iff hp).mpr hg⟩) hp hl ?_)
    -- the scan of the GEPs on globals makes no GEP an output
    rw [scan_outputs]
    rintro (hold | ⟨other, hother, hp', -⟩)
    · rw [hr, findOutputs_gep hM hgep, huse] at hold
      cases hold
    · have hglob := (onGlobal_iff hp').mp (List.mem_filter.mp hother).2
      cases hglob

end Sets

section Plan
variable {c : CloneCtx} {n : Nat} {s : Plan}

/- A pointer output that is passed through is the first to take the place of its input. -/
theorem planRoot_passed (h : c.planRoot n = some s) {v arg : Value} (hv : v ∈ c.bidirectional)
    (ha : PassesThrough c v arg) : ∃ σ τ, s.subst = σ ++ τ ∧ v ∈ σ.map Prod.fst ∧ ∀ p ∈ σ, p.1 = v → p.2 = arg := by
  obtain ⟨s₁, h1, h⟩ := Option.bind_eq_some_iff.mp h
  obtain ⟨s₂, h2, h3⟩ := Option.bind_eq_some_iff.mp h
  obtain ⟨outv, hout, hptr⟩ := ha
  have f1 : ∀ p ∈ s₁.subst, p.1 ∈ c.usedInputs := by
    refine foldlM_preserves (P := fun t : Plan => ∀ p ∈ t.subst, p.1 ∈ c.usedInputs) _ ?_ (by simp) h1
    intro vi t t' hvi ht hstep p hp
    obtain ⟨u, dst, hu, rfl⟩ := planInput_replace hstep
    rcases List.mem_append.mp hp with hp | hp
    · exact ht p (hu ▸ hp)
    · rw [List.mem_singleton.mp hp]
      exact mem_of_mem_zipIdx hvi
  have f2 : ∀ p ∈ s₂.subst, p.1 = v → p.2 = arg := by
    refine foldlM_preserves (P := fun t : Plan => ∀ p ∈ t.subst, p.1 = v → p.2 = arg) _ ?_ ?_ h2
    · intro w t t' _ ht hstep p hp hpv
      obtain ⟨r, hr, ⟨-, rfl⟩ | ⟨hty, ld, u, hld, rfl⟩⟩ := planBidirectional_inv hstep
      · rcases List.mem_append.mp hp with hp | hp
        · exact ht p hp hpv
        · rw [List.mem_singleton.mp hp] at hpv ⊢
          obtain rfl : w = v := hpv
          cases hout.symm.trans hr
          rfl
      · cases hld
        rcases List.mem_append.mp hp with hp | hp
        · exact ht p hp hpv
        · rw [List.mem_singleton.mp hp] at hpv
          obtain rfl : w = v := hpv
          cases hout.symm.trans hr
          rw [hty] at hptr
          cases hptr
    · -- a by-value input is not bidirectional
      intro p hp hpv
      have hio := (SetVector.mem_filter.mp (f1 p hp)).2
      rw [hpv, CodeExtractor.isInputOnly, (List.mem_filter.mp hv).2] at hio
      cases hio
  obtain ⟨-, r2⟩ := foldlM_replaces id (fun _ _ _ => planBidirectional_replace) _ h2
  obtain ⟨⟨τ, hτ⟩, -⟩ := foldlM_replaces Prod.fst (fun _ _ _ => planStackAlloca_replace) _ h3
  obtain ⟨p, hp, hpv⟩ := r2 v hv
  exact ⟨s₂.subst, τ, hτ.symm, List.mem_map.mpr ⟨p, hp, hpv⟩, f2⟩

end Plan

section Types

theorem sizeOf_field {t : Ty} {ts : List Ty} (h : t ∈ ts) : sizeOf t < sizeOf (Ty.structOf ts) := by
  induction ts with
  | nil => cases h
  | cons u ts ih =>
    simp only [Ty.structOf, Ty.structCons.sizeOf_spec]
    rcases List.mem_cons.mp h with rfl | h
    · omega
    · have := ih h
      omega

/- The parameter of a pointer output has its type, unless all arguments are one struct. -/
theorem paramTypes_pointer {agg : Bool} {usedInputs outputs : List Value} {i : Nat} {g : Value}
    (hi : outputs[i]? = some g) (hg : g.ty.isPointerTy = true) {t : Ty}
    (ht : (paramTypes agg usedInputs outputs)[usedInputs.length + i]? = some t) : t = g.ty ↔ agg = false := by
  have hmem : g.ty ∈ outputs.map Value.ty := List.mem_map_of_mem (List.mem_of_getElem? hi)
  rw [paramTypes] at ht
  cases agg with
  | false =>
    simp only [Bool.false_eq_true, if_false] at ht
    rw [List.getElem?_append_right (by simp), List.length_map, Nat.add_sub_cancel_left, List.getElem?_map, hi] at ht
    have ht' : outputParamTy g.ty = t := Option.some.inj ht
    rw [← ht', outputParamTy, if_pos hg]
    simp
  | true =>
    have hpos : usedInputs.length + outputs.length > 0 := by
      have := List.length_pos_of_mem (List.mem_of_getElem? hi)
      omega
    simp only [if_true, if_pos hpos] at ht
    obtain ⟨hlt, rfl⟩ := List.getElem?_eq_some_iff.mp ht
    have hzero : usedInputs.length + i = 0 := Nat.lt_one_iff.mp hlt
    simp only [hzero, List.getElem_cons_zero, Bool.true_eq_false, iff_false]
    intro he
    have hsize := sizeOf_field (List.mem_append_right (usedInputs.map Value.ty) hmem)
    rw [← he, Ty.getUnqual, Ty.ptr.sizeOf_spec] at hsize
    omega

end Types

section Clone
variable {ce : CodeExtractor} {M : Module} {header : BlockId} {old : Function} (k : Cloned ce M header old)
  {g : Inst → List Inst}

/- What has the number of a clone in the new function is the clone, and flattening left it alone. -/
theorem Cloned.clone_core (hg : CloneShape M ce.blocks.elems ce.toFlatten k.clones k.vm g) {i : Inst}
    (hi : i ∈ M.regionInsts ce.blocks.elems) {u : Inst} (hu : u ∈ k.newFunction.insts) (hid : u.id = M.nextId + i.id) :
    flattens M ce.toFlatten i = false ∧
      u.core = (rewriteInst k.ctx k.root.subst k.vm (cloneInst M.nextId i)).core := by
  have hlt := k.wf.insts_lt i (regionInsts_sub k.wf.toIds hi)
  have hn := k.numbers.nextId_ge
  rcases k.mem_insts.mp hu with hu | hu | ⟨c, hc, hu⟩
  · have := (root_insts k.root_eq rfl (M.nextId + header) u hu).1
    omega
  · have := (exit_insts k.vm k.root_eq k.exit_eq u hu).1
    omega
  · have hc' : c ∈ (M.region ce.blocks.elems).map (expand M.nextId g) := hg.blocks ▸ hc
    obtain ⟨b, hb, rfl⟩ := List.mem_map.mp hc'
    obtain ⟨x, hx, -, hcore⟩ := finishBlock_mem _ _ _ _ hu
    obtain ⟨j, hj, hxj⟩ := List.mem_flatMap.mp hx
    have hjm : j ∈ M.regionInsts ce.blocks.elems := List.mem_flatMap.mpr ⟨b, hb, hj⟩
    have hxid : x.id = M.nextId + i.id := (rewriteInst_core_id hcore).symm.trans hid
    have hpiece := hg.piece j hjm
    generalize g j = is at hpiece hxj
    generalize k.vm.val j.val = w at hpiece
    cases hpiece with
    | copy hno =>
      rw [List.mem_singleton.mp hxj] at hxid hcore
      have hji : j.id = i.id := Nat.add_left_cancel hxid
      obtain rfl := inst_unique k.wf.toIds (regionInsts_sub k.wf.toIds hjm) (regionInsts_sub k.wf.toIds hi) hji
      exact ⟨hno, hcore⟩
    | flat base r idx m new _ _ _ hm hnew =>
      obtain ⟨⟨hids, -⟩, -⟩ := flattenGEP_spec hnew
      have hxm : x.id ∈ List.range' m new.insts.length := hids ▸ List.mem_map_of_mem hxj
      rw [List.mem_range'_1] at hxm
      omega

theorem Cloned.clone_spec (hg : CloneShape M ce.blocks.elems ce.toFlatten k.clones k.vm g) {i : Inst}
    (hi : i ∈ M.regionInsts ce.blocks.elems) {u : Inst} (hu : u ∈ k.newFunction.insts) (hid : u.id = M.nextId + i.id) :
    flattens M ce.toFlatten i = false ∧ u.operands = i.operands.map k.image := by
  obtain ⟨hno, hcore⟩ := k.clone_core hg hi hu hid
  exact ⟨hno, (k.clone_operands hcore).trans rfl⟩

theorem Cloned.has_clone (hg : CloneShape M ce.blocks.elems ce.toFlatten k.clones k.vm g) {i : Inst}
    (hi : i ∈ M.regionInsts ce.blocks.elems) (hig : isIgnoredIntrinsic i = false)
    (hflat : flattens M ce.toFlatten i = false) :
    ∃ u ∈ k.newFunction.insts, u.id = M.nextId + i.id := by
  obtain ⟨b, hb, hib⟩ := List.mem_flatMap.mp hi
  have hcopy : g i = [cloneInst M.nextId i] := by
    have hpiece := hg.piece i hi
    generalize g i = is at hpiece
    generalize k.vm.val i.val = w at hpiece
    cases hpiece with
    | copy => rfl
    | flat base r idx m new hyes =>
      rw [hflat] at hyes
      cases hyes
  have hx : cloneInst M.nextId i ∈ (expand M.nextId g b).insts :=
    List.mem_flatMap.mpr ⟨i, hib, by rw [hcopy]; exact List.mem_singleton_self _⟩
  obtain ⟨u, hu, hcore⟩ := finishBlock_of_mem k.ctx k.root.subst k.vm (M.nextId + header) hx hig
  exact ⟨u, k.finish_mem hg hb hu, rewriteInst_core_id hcore⟩

/- A bidirectional input whose output is a pointer becomes the output's parameter. -/
theorem Cloned.image_passed (hin : ∀ v ∈ ce.inputs, v.below M.nextId) (hslots : ∀ v ∈ ce.stackAllocas, v ∈ ce.inputs)
    {v arg : Value} (hv : v ∈ k.ctx.bidirectional) (ha : PassesThrough k.ctx v arg) : k.image v = arg := by
  obtain ⟨σ, τ, hsubst, hmem, hall⟩ := planRoot_passed k.root_eq hv ha
  have hput : applySubst k.root.subst v = arg := by
    have hapart := k.subst_apart hin hslots
    rw [hsubst] at hapart ⊢
    exact applySubst_first hmem hall hapart
  obtain ⟨outv, hout, -⟩ := ha
  obtain ⟨-, t, rfl⟩ := outputOf_spec hout
  rw [Cloned.image, hput, k.vm_arg, Option.getD_none]

/- The global becomes the parameter for the output exactly if it is an input, and arguments are
not aggregated. -/
theorem Cloned.image_global (hin : ∀ v ∈ ce.inputs, v.below M.nextId) (hslots : ∀ v ∈ ce.stackAllocas, v ∈ ce.inputs)
    {v : Value} (hv : v.isGlobalVariable = true) {i : Nat} (hi : ce.outputs.elems[i]? = some v)
    (hboth : v ∈ ce.inputs → ce.isBidirectional v = true ∧ k.ctx.outputIndex v = i) :
    k.image v = .arg k.n (k.ctx.usedInputs.length + i) v.ty ↔ ce.aggregateArgs = false ∧ v ∈ ce.inputs := by
  have hty : v.ty.isPointerTy = true := by
    cases v with
    | global _ _ _ => rfl
    | _ => cases hv
  by_cases hvin : v ∈ ce.inputs
  · obtain ⟨hb, hidx⟩ := hboth hvin
    have hbid : v ∈ k.ctx.bidirectional := k.mem_bidirectional.mpr ⟨hvin, hb⟩
    obtain ⟨⟨o, arg⟩, hout⟩ := planRoot_outputOf (c := k.ctx) k.root_eq hbid
    obtain ⟨ho, t, rfl⟩ := outputOf_spec hout
    dsimp only at ho hout
    rw [hidx] at ho hout
    obtain rfl : v = o := Option.some.inj (hi.symm.trans ho)
    have ht : k.ctx.params[k.ctx.usedInputs.length + i]? = some t := by
      rcases outputOf_has k.root hout with ⟨x, hx⟩ | ⟨j, t', hj, hx⟩ | ⟨y, -, hx⟩
      · cases hx
      · injection hx with _ hji htt
        rw [hji, htt]
        exact hj
      · cases hx
    have himg := k.image_passed hin hslots hbid ⟨v, hout, hty⟩
    have hiff := paramTypes_pointer hi hty ht
    rw [himg]
    constructor
    · intro he
      have htv : t = v.ty := by injection he
      exact ⟨hiff.mp htv, hvin⟩
    · rintro ⟨hagg, -⟩
      rw [hiff.mpr hagg]
      rfl
  · have hund : definedInRegion M ce.blocks v = false := by
      cases v with
      | global _ _ _ => rfl
      | _ => cases hv
    rw [k.image_of_undefined hslots hvin hund]
    refine ⟨fun he => ?_, fun h => absurd h.2 hvin⟩
    rw [he] at hv
    cases hv

end Clone

section Run
variable {ce₀ ce ce' : CodeExtractor} {M : Module} {acc : Option (List InstId)}

/- Numbers only grow. -/
theorem severSplitPHINodes_nextId {M' : Module} {header header' : BlockId}
    (h : severSplitPHINodes ce M header = some (ce', M', header')) : M.nextId ≤ M'.nextId := by
  have hrun := severSplitPHINodes_run (P := fun _ N => M.nextId ≤ N.nextId) h
    (fun _ _ _ _ => Nat.le_succ _) (fun _ _ _ hN => hN) ?_
  · rcases hrun with ⟨-, rfl, -⟩ | ⟨-, hle⟩
    · exact Nat.le_refl _
    · exact hle
  · rintro c N c' N' pn hN hstep
    obtain ⟨PN, moved, kept, -, -, -, rfl, rfl⟩ := severPHI_inv hstep
    exact Nat.le_succ_of_le hN

theorem splitReturnBlocks_nextId (blocks : SetVector BlockId) (M : Module) :
    M.nextId ≤ (splitReturnBlocks blocks M).nextId := by
  refine foldl_preserves (P := fun N : Module => M.nextId ≤ N.nextId) _ ?_ (Nat.le_refl _)
  intro b N _ hN
  unfold splitReturnBlock
  split
  · split
    · exact Nat.le_succ_of_le hN
    · exact hN
  · exact hN

/- Severing renames PHIs only, so the index of a global stays. -/
theorem severSplitPHINodes_index {M' : Module} {header header' : BlockId}
    (h : severSplitPHINodes ce M header = some (ce', M', header')) {g : Value} (hg : g.isGlobalVariable = true) :
    ce'.inputToOutputMap.lookup g = ce.inputToOutputMap.lookup g := by
  have hrun := severSplitPHINodes_run (P := fun c _ => c.inputToOutputMap.lookup g = ce.inputToOutputMap.lookup g) h
    (fun _ _ _ _ => rfl) (fun _ _ _ hN => hN) ?_
  · rcases hrun with ⟨rfl, -, -⟩ | ⟨-, hkeep⟩
    · rfl
    · exact hkeep
  · rintro c N c' N' pn hN hstep
    obtain ⟨PN, moved, kept, -, -, -, rfl, rfl⟩ := severPHI_inv hstep
    have hsrc : g ≠ PN.val := global_not_inst hg _ _
    rw [followRAUW_lookup _ (global_not_inst hg _ _), if_neg hsrc]
    exact hN

/- Every clone of a GEP on a global that is an output goes through the parameter for it. -/
def GlobalsReached (N : Module) (blocks : SetVector BlockId) (ce : CodeExtractor) (F : Function) : Prop :=
  ∀ gep ∈ regionGeps N blocks, ∀ (i : Nat) g, gepPointer gep = some g → g.isGlobalVariable = true →
    ce.outputs.elems[i]? = some g → ∀ u ∈ F.insts, u.id = N.nextId + gep.id →
      gepPointer u = some (.arg F.id (ce.getPureInputs.length + i) g.ty)

/- What `prepare` knows of an output that is a global, when the region is cloned. -/
theorem prepared_global (hp : ce₀.prepare M = some ce) {M' : Module} {header header' : BlockId}
    (h : severSplitPHINodes { ce with accesses := acc } M header = some (ce', M', header')) (hM : M.WF)
    {g : Value} (hg : g.isGlobalVariable = true) {i : Nat} (hi : ce.outputs.elems[i]? = some g) (hin : g ∈ ce.inputs) :
    ce'.isBidirectional g = true ∧ ce'.inputToOutputMap.lookup g = some i := by
  have hmem := (prepare_inputs_mem hp g).mp hin
  obtain ⟨hio, hoi⟩ := prepare_maps hp
  rw [prepare_outputs hp] at hi
  have ho : g ∈ (ce₀.findAll M).outputs := List.mem_of_getElem? hi
  obtain ⟨h1, h2⟩ := mapInputsOutputs_lookup M (ce₀.findAll M).inputs (ce₀.findAll M).outputs g
  rw [if_pos ⟨ho, hmem⟩] at h1 h2
  constructor
  · rw [severed_isBidirectional hM hp h g hin, CodeExtractor.isBidirectional, hoi, isBidirectional_iff]
    exact .inr ⟨g, h2⟩
  · have hidx : (ce₀.findAll M).outputs.elems.idxOf g = i := by
      obtain ⟨hlt, rfl⟩ := List.getElem?_eq_some_iff.mp hi
      exact (ce₀.findAll M).outputs.nodup.idxOf_getElem i hlt
    have hkeep := severSplitPHINodes_index h hg
    rw [hkeep, ← hidx]
    exact (congrArg (AList.lookup g) hio).trans h1

theorem gepPointer_map {gep u : Inst} {φ : Value → Value} {p : Value} (hp : gepPointer gep = some p)
    (hu : u.operands = gep.operands.map φ) : gepPointer u = some (φ p) := by
  rw [gepPointer, hu, List.head?_map]
  exact congrArg (Option.map φ) hp

theorem Extraction.nextId_le (x : Extraction ce M ce') : M.nextId ≤ (splitReturnBlocks ce'.blocks x.severed).nextId :=
  Nat.le_trans (severSplitPHINodes_nextId x.severed_eq) (splitReturnBlocks_nextId ce'.blocks x.severed)

/- What becomes of a global output in the clones: its parameter, if arguments are not aggregated and the
global is an input too. -/
theorem Extraction.image_global (x : Extraction { ce with accesses := acc } M ce') (hM : M.WF)
    (hfirst : ce₀.stackAllocas = ∅) (hp : ce₀.prepare M = some ce) {v : Value} (hv : v.isGlobalVariable = true) {i : Nat}
    (hi : ce.outputs.elems[i]? = some v) :
    x.cloned.image v = .arg x.cloned.n (ce.getPureInputs.length + i) v.ty ↔
      ce.aggregateArgs = false ∧ LoadedThrough M ce.blocks v := by
  have hins : ce'.inputs = ce.inputs := x.from_.sets.inputs
  have houts : ce'.outputs = ce.outputs := x.from_.sets.outputs
  have hsa : ce'.stackAllocas = ce.stackAllocas := x.from_.sets.stackAllocas
  have hagg : ce'.aggregateArgs = ce.aggregateArgs := x.from_.sets.aggregateArgs
  have hpure : ce'.getPureInputs = ce.getPureInputs := severed_getPureInputs hM hp hins hsa x.severed_eq
  have hbelow : ∀ v ∈ ce'.inputs, v.below (splitReturnBlocks ce'.blocks x.severed).nextId := by
    intro v hv
    rw [hins] at hv
    obtain ⟨i, hi, hvi⟩ := findAll_inputs ((prepare_inputs_mem hp v).mp hv)
    exact (hM.operands_below i (regionInsts_sub hM.toIds hi) v hvi).mono x.nextId_le
  have hslots : ∀ v ∈ ce'.stackAllocas, v ∈ ce'.inputs := by
    rw [hsa, hins]
    exact prepare_slots hp hfirst
  have hiff := x.cloned.image_global hbelow hslots hv (by rw [houts]; exact hi) fun hvin => by
    obtain ⟨hb, hl⟩ := prepared_global hp x.severed_eq hM hv hi (hins ▸ hvin)
    refine ⟨hb, ?_⟩
    change (ce'.inputToOutputMap.lookup v).getD 0 = i
    rw [hl, Option.getD_some]
  have hused : x.cloned.ctx.usedInputs.length = ce.getPureInputs.length := by
    rw [← hpure]
    rfl
  rw [hused, hagg, hins, prepare_inputs_mem hp v, findAll_input_global hM hv, ← prepare_blocks hp] at hiff
  exact hiff

/- The GEPs that are cloned are those of the region that was prepared. -/
theorem Extraction.gepsKept (x : Extraction ce M ce') (hM : M.WF) (hpad : HeaderNoPad M x.header) :
    ∃ ρ, GEPsKept M ce.blocks.elems (splitReturnBlocks ce'.blocks x.severed) ce'.blocks.elems ρ := by
  obtain ⟨ρ, hρ⟩ := severSplitPHINodes_gepsKept hM (List.mem_of_mem_head? x.header_head) hpad x.severed_eq
  exact ⟨_, hρ.trans (splitReturnBlocks_gepsKept x.from_.wf _ ce'.blocks)⟩

/- GEPs on a global output reach the caller's memory exactly if arguments are not aggregated and
the region loads through a GEP on the global that it does not pass on. -/
theorem globalsReached_iff {M' : Module} {f : FuncId} {bbs : List BlockId} {iterInfo : Option IteratorInfo}
    {LBA : Option LoopBoundsAnalyzer} {DT : Option (BlockId → Bool)} {agg varArgs allocas flatten : Bool}
    (hM : M.WF) (h0 : codeExtractor M bbs iterInfo LBA DT agg varArgs allocas flatten = some ce₀)
    (hbs : ∀ b ∈ bbs, ∃ x ∈ M.blocks, x.id = b) (hp : ce₀.prepare M = some ce)
    (hacc : ∀ a ∈ acc.getD [], ∃ i ∈ M.insts, i.id = a)
    (h : cloneCodeRegion { ce with accesses := acc } M = some (ce', M', some f)) :
    ∃ (x : Extraction { ce with accesses := acc } M ce') (F : Function),
      M'.funcs.find? (fun g => g.id = f) = some F ∧
      (GlobalsReached (splitReturnBlocks ce'.blocks x.severed) ce'.blocks ce F ↔
        ∀ gep ∈ regionGeps M ce.blocks, ∀ g, gepPointer gep = some g → g.isGlobalVariable = true →
          flattens M (CodeExtractor.toFlatten { ce with accesses := acc }) gep = false →
            StoredThrough M ce.blocks g → ce.aggregateArgs = false ∧ LoadedThrough M ce.blocks g) := by
  have hblocks := prepare_blocks hp
  have hexist := prepare_exist h0 hbs hp
  obtain ⟨x, rfl, rfl⟩ := cloneCodeRegion_extraction hM (by exact hexist) h
  refine ⟨x, x.cloned.newFunction, x.find_function, ?_⟩
  obtain ⟨ρ, hkept⟩ := x.gepsKept hM (codeExtractor_noPad h0 (hblocks ▸ x.header_head))
  have hflat : ce'.toFlatten = CodeExtractor.toFlatten { ce with accesses := acc } := by
    unfold CodeExtractor.toFlatten
    rw [x.from_.sets.accesses, x.from_.sets.flattenArrayAccesses]
  have hin : ∀ a ∈ CodeExtractor.toFlatten { ce with accesses := acc }, ∃ i ∈ M.insts, i.id = a := by
    intro a ha
    unfold CodeExtractor.toFlatten at ha
    split at ha
    · exact hacc a ha
    · cases ha
  rw [← hkept.globals_iff hM.toIds (splitReturnBlocks_from x.from_.wf ce'.blocks).1.toIds hin, ← hflat]
  set N := splitReturnBlocks ce'.blocks x.severed with hN
  have hout := prepare_outputs hp
  obtain ⟨g, hg⟩ := x.cloned.shape (x.toFlatten_lt hM x.nextId_le hacc)
  have himage := fun v hv i => x.image_global hM (codeExtractor_slots h0) hp (v := v) hv (i := i)
  have hclone : ∀ gep ∈ regionGeps N ce'.blocks, gep ∈ N.regionInsts ce'.blocks.elems ∧ isIgnoredIntrinsic gep = false := by
    intro gep hgep
    obtain ⟨hreg, hop⟩ := List.mem_filter.mp hgep
    exact ⟨hreg, by simp [isIgnoredIntrinsic, Opcode.intrinsic?, of_decide_eq_true hop]⟩
  constructor
  · intro hall gep hgep v hv hglob hflat hstored
    obtain ⟨hreg, hig⟩ := hclone gep hgep
    have hmem : v ∈ ce.outputs := by
      rw [hout, findAll_output_global hglob, ← hblocks]
      exact hstored
    obtain ⟨i, hi⟩ := List.mem_iff_getElem?.mp hmem
    obtain ⟨u, hu, hid⟩ := x.cloned.has_clone hg hreg hig hflat
    obtain ⟨-, hops⟩ := x.cloned.clone_spec hg hreg hu hid
    have harg := hall gep hgep i v hv hglob hi u hu hid
    rw [gepPointer_map hv hops] at harg
    exact (himage v hglob i hi).mp (Option.some.inj harg)
  · intro hcond gep hgep i v hv hglob hi u hu hid
    obtain ⟨hreg, -⟩ := hclone gep hgep
    obtain ⟨hflat, hops⟩ := x.cloned.clone_spec hg hreg hu hid
    have hstored : StoredThrough M ce.blocks v := by
      have hmem : v ∈ ce.outputs := List.mem_of_getElem? hi
      rwa [hout, findAll_output_global hglob, ← hblocks] at hmem
    rw [gepPointer_map hv hops]
    exact congrArg some ((himage v hglob i hi).mpr (hcond gep hgep v hv hglob hflat hstored))

end Run

/- `for (i = 0; i < n; ++i) { A[i] = A[i] + 1; B[i] = i; }` with the global arrays `A` and `B`. -/
def arraysLoop : Module where
  funcs := [{ id := 9, params := [⟨"n", .int 32⟩], isVarArg := false, blocks :=
    [⟨0, [Inst.uncondBr 20 1], false⟩,
     ⟨1, [⟨10, .phi, .int 32, [.const (.int 32 0), .inst 16 (.int 32)], [0, 3], []⟩,
          ⟨12, .other 0, .int 1, [.inst 10 (.int 32), .arg 9 0 (.int 32)], [], []⟩,
          ⟨21, .br, .void, [.inst 12 (.int 1)], [], [2, 4]⟩], false⟩,
     ⟨2, [⟨13, .getElementPtr, .ptr (.int 32) 0,
            [.global 0 (.array 8 (.int 32)) 0, .const (.int 32 0), .inst 10 (.int 32)], [], []⟩,
          ⟨14, .load, .int 32, [.inst 13 (.ptr (.int 32) 0)], [], []⟩,
          ⟨15, .add, .int 32, [.inst 14 (.int 32), .const (.int 32 1)], [], []⟩,
          ⟨17, .store, .void, [.inst 15 (.int 32), .inst 13 (.ptr (.int 32) 0)], [], []⟩,
          ⟨18, .getElementPtr, .ptr (.int 32) 0,
            [.global 1 (.array 8 (.int 32)) 0, .const (.int 32 0), .inst 10 (.int 32)], [], []⟩,
          ⟨19, .store, .void, [.inst 10 (.int 32), .inst 18 (.ptr (.int 32) 0)], [], []⟩,
          Inst.uncondBr 22 3], false⟩,
     ⟨3, [⟨16, .add, .int 32, [.inst 10 (.int 32), .const (.int 32 1)], [], []⟩,
          Inst.uncondBr 23 1], false⟩,
     ⟨4, [⟨24, .ret, .void, [], [], []⟩], false⟩] }]
  nextId := 30
  valueName := fun _ => ""
  initUsesBlockAddress := fun _ => false

theorem arraysLoop_wf : arraysLoop.WF := by
  refine ⟨⟨by decide, by decide, by decide, by decide⟩, by decide, by decide, ?_⟩
  decide

/- The body as a function, and how it was prepared. -/
def arraysFunction : Option (CodeExtractor × CodeExtractor × Module × FuncId × Function) := do
  let ce ← preparedExtractor sumArgs arraysLoop sumInfo
  let (ce', M', f) ← cloneCodeRegion ce arraysLoop
  let f ← f
  let F ← M'.funcs.find? fun g => g.id = f
  return (ce, ce', M', f, F)

theorem arraysFunction_spec {ce ce' : CodeExtractor} {M' : Module} {f : FuncId} {F : Function}
    (h : arraysFunction = some (ce, ce', M', f, F)) : preparedExtractor sumArgs arraysLoop sumInfo = some ce ∧
      cloneCodeRegion ce arraysLoop = some (ce', M', some f) ∧ M'.funcs.find? (fun g => g.id = f) = some F := by
  unfold arraysFunction at h
  obtain ⟨_, h1, h⟩ := Option.bind_eq_some_iff.mp h
  obtain ⟨⟨_, _, f'⟩, h2, h⟩ := Option.bind_eq_some_iff.mp h
  obtain ⟨_, h3, h⟩ := Option.bind_eq_some_iff.mp h
  obtain ⟨_, h4, h⟩ := Option.bind_eq_some_iff.mp h
  cases h
  obtain rfl : f' = some _ := h3
  exact ⟨h1, h2, h4⟩

theorem globalsReached_iff_arraysLoop : ∃ ce ce' M' f, ∃ (x : Extraction { ce with accesses := none } arraysLoop ce')
    (F : Function), cloneCodeRegion { ce with accesses := none } arraysLoop = some (ce', M', some f) ∧
    M'.funcs.find? (fun g => g.id = f) = some F ∧
    (GlobalsReached (splitReturnBlocks ce'.blocks x.severed) ce'.blocks ce F ↔
      ∀ gep ∈ regionGeps arraysLoop ce.blocks, ∀ g, gepPointer gep = some g → g.isGlobalVariable = true →
        flattens arraysLoop (CodeExtractor.toFlatten { ce with accesses := none }) gep = false →
          StoredThrough arraysLoop ce.blocks g → ce.aggregateArgs = false ∧ LoadedThrough arraysLoop ce.blocks g) := by
  have hrun : arraysFunction.isSome = true := by decide
  obtain ⟨⟨ce, ce', M', f, F⟩, hr⟩ := Option.isSome_iff_exists.mp hrun
  obtain ⟨hce, hclone, -⟩ := arraysFunction_spec hr
  have hnone : (preparedExtractor sumArgs arraysLoop sumInfo).all (fun ce => ce.accesses = none) = true := by decide
  rw [hce, Option.all_some, decide_eq_true_eq] at hnone
  have hclone' : cloneCodeRegion { ce with accesses := none } arraysLoop = some (ce', M', some f) := by
    rw [← hnone]
    exact hclone
  unfold preparedExtractor at hce
  obtain ⟨ce₀, h0, hp⟩ := Option.bind_eq_some_iff.mp hce
  obtain ⟨x, F', hF', hiff⟩ := globalsReached_iff arraysLoop_wf h0 (by decide) hp (by simp) hclone'
  exact ⟨ce, ce', M', f, x, F', hclone', hF', hiff⟩

def arrayB : Value := .global 1 (.array 8 (.int 32)) 0

/- The function has a clone of a GEP of the region on `B` that still starts from `B`. -/
def missesB (r : CodeExtractor × CodeExtractor × Module × FuncId × Function) (q : CodeExtractor × Module × BlockId) : Bool :=
  let N := splitReturnBlocks q.1.blocks q.2.1
  (regionGeps N q.1.blocks).any fun gep => gepPointer gep = some arrayB &&
    r.2.2.2.2.insts.any fun u => u.id = N.nextId + gep.id && gepPointer u = some arrayB

/- `B` is only stored to, and its parameter is never used. -/
theorem arraysLoop_missed : ∃ ce ce' M' f, ∃ (x : Extraction ce arraysLoop ce') (F : Function),
    preparedExtractor sumArgs arraysLoop sumInfo = some ce ∧ cloneCodeRegion ce arraysLoop = some (ce', M', some f) ∧
    M'.funcs.find? (fun g => g.id = f) = some F ∧
    ¬GlobalsReached (splitReturnBlocks ce'.blocks x.severed) ce'.blocks ce F := by
  have hrun : arraysFunction.any (fun r => r.1.blocks.elems = [2] && r.1.outputs.elems[1]? = some arrayB &&
      (severSplitPHINodes r.1 arraysLoop 2).all (missesB r)) = true := by decide
  obtain ⟨⟨ce, ce', M', f, F⟩, hr, hany⟩ := (Option.any_eq_true _ _).mp hrun
  obtain ⟨hce, hclone, hF⟩ := arraysFunction_spec hr
  rw [Bool.and_eq_true, Bool.and_eq_true, decide_eq_true_eq, decide_eq_true_eq] at hany
  obtain ⟨⟨hblocks, hB⟩, hall⟩ := hany
  obtain ⟨x, rfl, rfl⟩ := cloneCodeRegion_extraction arraysLoop_wf (by
    rw [hblocks]
    decide) hclone
  refine ⟨ce, ce', _, _, x, F, hce, hclone, hF, fun hreach => ?_⟩
  have hsever := x.severed_eq
  have hhead := x.header_head
  rw [hblocks] at hhead
  have hheader : 2 = x.header := Option.some.inj hhead
  rw [hheader, hsever, Option.all_some] at hall
  obtain ⟨gep, hgep, hmiss⟩ := List.any_eq_true.mp hall
  rw [Bool.and_eq_true, decide_eq_true_eq] at hmiss
  obtain ⟨u, hu, hub⟩ := List.any_eq_true.mp hmiss.2
  rw [Bool.and_eq_true, decide_eq_true_eq, decide_eq_true_eq] at hub
  have harg := hreach gep hgep 1 arrayB hmiss.1 rfl hB u hu hub.1
  rw [hub.2] at harg
  cases harg

end Atrox
