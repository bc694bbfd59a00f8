import Atrox.Transforms.LoopBodyCloner
import Atrox.Transforms.SeverRegion

/-!
# Parameters of the extracted function

The parameter list, the directions and the iterator variance are three lists over the
same values: the pure inputs and then the outputs.
-/

namespace Atrox
open IR Lib

def inputParam (M : Module) (v : Value) : Param := ⟨M.valueName v, v.ty⟩

def outputParam (M : Module) (v : Value) : Param := ⟨M.valueName v ++ ".out", outputParamTy v.ty⟩

/- The values the new function is called with, one for each parameter or field. -/
def slots (ce : CodeExtractor) : List Value := ce.getPureInputs.elems ++ ce.getOutputs.elems

def slotParams (M : Module) (ce : CodeExtractor) : List Param :=
  ce.getPureInputs.elems.map (inputParam M) ++ ce.getOutputs.elems.map (outputParam M)

/- All parameters: one for each slot, or one for a struct of all slots. -/
def signature (M : Module) (ce : CodeExtractor) : List Param :=
  if ce.aggregateArgs then
    if slots ce = [] then [] else [⟨"", (Ty.structOf ((slots ce).map Value.ty)).getUnqual⟩]
  else slotParams M ce

/- Parameter of the slot `i`. -/
def slotParam (M : Module) (ce : CodeExtractor) (i : Nat) (v : Value) : Param :=
  if i < ce.getPureInputs.length then inputParam M v else outputParam M v

/- Direction of the slot `i`. -/
def slotDirection (M : Module) (ce : CodeExtractor) (mai : Option MemoryAccessInfo) (i : Nat)
    (v : Value) : Option ArgDirection :=
  if i < ce.getPureInputs.length then inputDirection M mai v else outputDirection M mai v

section Params
variable {ce : CodeExtractor} {M : Module} {header : BlockId} {old : Function}

theorem slots_length (ce : CodeExtractor) :
    (slots ce).length = ce.getPureInputs.length + ce.getOutputs.length := by
  simp only [slots, List.length_append, SetVector.length]

theorem paramsOf_slots (c : CloneCtx) (N : Module) (hagg : c.ce.aggregateArgs = false)
    (hparams : c.params = paramTypes c.ce.aggregateArgs (c.ce.inputs.filter c.ce.isInputOnly).elems
      c.ce.outputs.elems) : c.paramsOf N = slotParams N c.ce := by
  have hzip : ∀ (as bs : List Value) (f : Value → String) (g : Value → Ty) (f' : Value → String)
      (g' : Value → Ty), List.zipWith Param.mk (as.map f ++ bs.map f') (as.map g ++ bs.map g') =
        as.map (fun v => ⟨f v, g v⟩) ++ bs.map fun v => ⟨f' v, g' v⟩ := by
    intro as bs f g f' g'
    rw [List.zipWith_append (by simp)]
    simp only [List.zipWith_map, List.zipWith_self]
  rw [CloneCtx.paramsOf, hagg, hparams, hagg]
  exact hzip _ _ _ _ _ _

theorem paramsOf_signature (c : CloneCtx) (N : Module)
    (hparams : c.params = paramTypes c.ce.aggregateArgs (c.ce.inputs.filter c.ce.isInputOnly).elems
      c.ce.outputs.elems) : c.paramsOf N = signature N c.ce := by
  cases hagg : c.ce.aggregateArgs with
  | false =>
    rw [paramsOf_slots c N hagg hparams, signature, hagg]
    rfl
  | true =>
    have hslots : slots c.ce = (c.ce.inputs.filter c.ce.isInputOnly).elems ++ c.ce.outputs.elems := rfl
    simp only [CloneCtx.paramsOf, signature, hagg, if_true, hparams, paramTypes, hslots,
      List.map_append, gt_iff_lt]
    by_cases hnil : (c.ce.inputs.filter c.ce.isInputOnly).elems ++ c.ce.outputs.elems = []
    · obtain ⟨h1, h2⟩ := List.append_eq_nil_iff.mp hnil
      simp [h1, h2]
    · have hlen : 0 < (c.ce.inputs.filter c.ce.isInputOnly).elems.length + c.ce.outputs.elems.length := by
        rw [← List.length_append]
        exact List.length_pos_iff.mpr hnil
      rw [if_neg hnil, if_pos hlen]
      rfl

namespace Cloned
variable (k : Cloned ce M header old)

theorem newFunction_signature : k.newFunction.params = signature k.result ce :=
  paramsOf_signature k.ctx M rfl

theorem find_newFunction :
    k.result.funcs.find? (fun f => f.id = k.n) = some k.newFunction := by
  refine extended_find k.newFunction k.exit.nextId fun g hg he => ?_
  have h1 := k.wf.funcs_lt g hg
  have h2 := k.numbers.nextId_ge
  have h3 : g.id = k.n := he
  omega

theorem newFunction_params (hagg : ce.aggregateArgs = false) :
    k.newFunction.params = slotParams k.result ce :=
  paramsOf_slots k.ctx M hagg rfl

end Cloned
end Params

section Lists
variable {α β γ : Type}

theorem forall₂_getElem? {R : α → β → Prop} {as : List α} {bs : List β} (h : List.Forall₂ R as bs)
    {i : Nat} {a : α} (ha : as[i]? = some a) : ∃ b, bs[i]? = some b ∧ R a b := by
  induction h generalizing i with
  | nil => cases ha
  | cons hab _ ih =>
    cases i with
    | zero =>
      cases ha
      exact ⟨_, rfl, hab⟩
    | succ i => exact ih ha

/- An entry of a list in two parts that is computed part by part. -/
theorem map_append_getElem? {f g : α → β} (as bs : List α) {i : Nat} {a : α}
    (h : (as ++ bs)[i]? = some a) :
    (as.map f ++ bs.map g)[i]? = some (if i < as.length then f a else g a) := by
  by_cases hi : i < as.length
  · rw [List.getElem?_append_left hi] at h
    rw [List.getElem?_append_left (by simpa using hi), List.getElem?_map, h, if_pos hi]
    rfl
  · have hi' : as.length ≤ i := Nat.le_of_not_lt hi
    rw [List.getElem?_append_right hi'] at h
    rw [List.getElem?_append_right (by simpa using hi'), List.getElem?_map, List.length_map, h,
      if_neg hi]
    rfl

end Lists

theorem generateArgDirection_slot {M : Module} {ce : CodeExtractor} {mai : Option MemoryAccessInfo}
    {ds : List ArgDirection}
    (h : generateArgDirection M ce.getPureInputs ce.getOutputs mai = some ds) :
    ds.length = (slots ce).length ∧
      ∀ i v, (slots ce)[i]? = some v → ∃ d, ds[i]? = some d ∧ slotDirection M ce mai i v = some d := by
  obtain ⟨is, os, rfl, his, hos⟩ := generateArgDirection_spec _ _ _ _ _ h
  have hl1 := his.length_eq
  have hl2 := hos.length_eq
  constructor
  · simp only [slots, List.length_append]
    omega
  · intro i v hv
    by_cases hi : i < ce.getPureInputs.length
    · rw [slots, List.getElem?_append_left hi] at hv
      obtain ⟨d, hd, he⟩ := forall₂_getElem? his hv
      refine ⟨d, ?_, ?_⟩
      · rw [List.getElem?_append_left (hl1 ▸ hi)]
        exact hd
      · rw [slotDirection, if_pos hi]
        exact he
    · have hi' : ce.getPureInputs.elems.length ≤ i := Nat.le_of_not_lt hi
      rw [slots, List.getElem?_append_right hi'] at hv
      obtain ⟨d, hd, he⟩ := forall₂_getElem? hos hv
      refine ⟨d, ?_, ?_⟩
      · rw [List.getElem?_append_right (hl1 ▸ hi'), ← hl1]
        exact hd
      · rw [slotDirection, if_neg hi]
        exact he

theorem generateArgIteratorVariance_slot (ce : CodeExtractor) (disp : Value → Int) :
    generateArgIteratorVariance ce.getPureInputs ce.getOutputs disp =
      (slots ce).map fun v => decide (disp v = 2) := rfl

/- What `cloneLoop` records about the function. -/
theorem recordInfo_spec {a : CloneLoopArgs} {storeInfo : List FunctionArgSpec} {ce : CodeExtractor}
    {M : Module} {f : FuncId} {r : CloneLoopResult} (h : recordInfo a storeInfo ce M f = some r) :
    r.hasChanged = true ∧ r.M = M ∧ r.extracted = some (ce, f) ∧
    ∃ ds, generateArgDirection M ce.getPureInputs ce.getOutputs
        (some ⟨orderBlocks a.rpo a.selected, a.AA, a.ignoreAliasing⟩) = some ds ∧
      (a.storeSuccessInfo = false → r.storeInfo = storeInfo) ∧
      (a.storeSuccessInfo = true → ∃ F, M.funcs.find? (fun g => g.id = f) = some F ∧
        F.params.length = ds.length ∧ r.storeInfo = storeInfo ++
          [⟨f, a.curLoop, argSpecs F.params ds (argIteratorVariance a ce ds)⟩]) := by
  unfold recordInfo at h
  obtain ⟨ds, hds, h⟩ := Option.bind_eq_some_iff.mp h
  dsimp only at h
  split at h
  · next hst =>
    obtain ⟨F, hF, h⟩ := Option.bind_eq_some_iff.mp h
    split at h
    · next hlen =>
      cases h
      refine ⟨rfl, rfl, rfl, ds, hds, fun hn => ?_, fun _ => ⟨F, hF, hlen, rfl⟩⟩
      rw [hst] at hn
      cases hn
    · cases h
  · next hst =>
    cases h
    exact ⟨rfl, rfl, rfl, ds, hds, fun _ => rfl, fun ht => absurd ht hst⟩

theorem argSpecs_getElem? {ps : List Param} {ds : List ArgDirection} {bs : List Bool} {i : Nat}
    {p : Param} {d : ArgDirection} {b : Bool} (hp : ps[i]? = some p) (hd : ds[i]? = some d)
    (hb : bs[i]? = some b) : (argSpecs ps ds bs)[i]? = some ⟨p.name, d, b⟩ := by
  have h1 : (ds.zip bs)[i]? = some (d, b) := List.getElem?_zip_eq_some.mpr ⟨hd, hb⟩
  have h2 : (ps.zip (ds.zip bs))[i]? = some (p, d, b) := List.getElem?_zip_eq_some.mpr ⟨hp, h1⟩
  rw [argSpecs, List.getElem?_map, h2]
  rfl

section Alignment
variable {ce ce' : CodeExtractor} {M M' : Module} {f : FuncId}

theorem slotParams_getElem? (M : Module) (ce : CodeExtractor) {i : Nat} {v : Value}
    (h : (slots ce)[i]? = some v) : (slotParams M ce)[i]? = some (slotParam M ce i v) :=
  map_append_getElem? _ _ h

theorem Extraction.find_function (x : Extraction ce M ce') :
    x.cloned.result.funcs.find? (fun g => g.id = x.cloned.n) = some x.cloned.newFunction :=
  x.cloned.find_newFunction

theorem Extraction.params (x : Extraction ce M ce') (hagg : ce.aggregateArgs = false) :
    x.cloned.newFunction.params = slotParams x.cloned.result ce' :=
  x.cloned.newFunction_params (x.from_.sets.aggregateArgs.trans hagg)

/- The lists that go with the parameters of `F`, slot by slot. -/
structure Aligned (M : Module) (ce : CodeExtractor) (F : Function) : Prop where
  count : F.params.length = ce.getPureInputs.length + ce.getOutputs.length
  params : ∀ (i : Nat) v, (slots ce)[i]? = some v → F.params[i]? = some (slotParam M ce i v)
  directions : ∀ mai ds, generateArgDirection M ce.getPureInputs ce.getOutputs mai = some ds →
    ds.length = F.params.length ∧ ∀ (i : Nat) v, (slots ce)[i]? = some v →
      ∃ d, ds[i]? = some d ∧ slotDirection M ce mai i v = some d
  variance : ∀ disp : Value → Int,
    (generateArgIteratorVariance ce.getPureInputs ce.getOutputs disp).length = F.params.length ∧
    ∀ (i : Nat) v, (slots ce)[i]? = some v →
      (generateArgIteratorVariance ce.getPureInputs ce.getOutputs disp)[i]? = some (decide (disp v = 2))

/- The spec of the slot `i` as the recorded info has it. -/
def slotSpec (a : CloneLoopArgs) (M : Module) (ce : CodeExtractor) (i : Nat) (v : Value) :
    Option ArgSpec :=
  let mai : MemoryAccessInfo := ⟨orderBlocks a.rpo a.selected, a.AA, a.ignoreAliasing⟩
  (slotDirection M ce (some mai) i v).map fun d =>
    ⟨(slotParam M ce i v).name, d, a.getDisposition.any fun disp => disp v = 2⟩

theorem Extraction.aligned (x : Extraction ce M ce') (hagg : ce.aggregateArgs = false) :
    Aligned x.cloned.result ce' x.cloned.newFunction := by
  have hparams := x.params hagg
  have hlen : x.cloned.newFunction.params.length = (slots ce').length := by
    simp only [hparams, slotParams, slots, List.length_append, List.length_map]
  constructor
  · exact hlen.trans (slots_length ce')
  · intro i v hv
    rw [hparams]
    exact slotParams_getElem? _ ce' hv
  · intro mai ds hds
    obtain ⟨h1, h2⟩ := generateArgDirection_slot hds
    exact ⟨h1.trans hlen.symm, h2⟩
  · intro disp
    rw [generateArgIteratorVariance_slot, List.length_map]
    refine ⟨hlen.symm, fun i v hv => ?_⟩
    rw [List.getElem?_map, hv]
    rfl

theorem argIteratorVariance_slot (a : CloneLoopArgs) {ds : List ArgDirection}
    (hlen : ds.length = (slots ce').length) :
    (argIteratorVariance a ce' ds).length = ds.length ∧
      ∀ (i : Nat) v, (slots ce')[i]? = some v → (argIteratorVariance a ce' ds)[i]? =
        some (a.getDisposition.any fun disp => decide (disp v = 2)) := by
  unfold argIteratorVariance
  cases a.getDisposition with
  | none =>
    refine ⟨List.length_map .., fun i v hv => ?_⟩
    have hi : i < ds.length := hlen ▸ (List.getElem?_eq_some_iff.mp hv).1
    rw [List.getElem?_map, List.getElem?_eq_getElem hi]
    rfl
  | some disp =>
    dsimp only
    rw [generateArgIteratorVariance_slot, List.length_map]
    refine ⟨hlen.symm, fun i v hv => ?_⟩
    rw [List.getElem?_map, hv]
    rfl

/- Parameters, directions, variance and specs go through the slots in step. -/
theorem cloneCodeRegion_aligned (hM : M.WF) (hbs : ∀ b ∈ ce.blocks.elems, ∃ x ∈ M.blocks, x.id = b)
    (hagg : ce.aggregateArgs = false) (h : cloneCodeRegion ce M = some (ce', M', some f)) :
    ∃ F, M'.funcs.find? (fun g => g.id = f) = some F ∧ Aligned M' ce' F ∧
      ∀ (a : CloneLoopArgs) (storeInfo : List FunctionArgSpec) (r : CloneLoopResult),
        a.storeSuccessInfo = true → recordInfo a storeInfo ce' M' f = some r →
        ∃ specs : List ArgSpec, r.storeInfo = storeInfo ++ [⟨f, a.curLoop, specs⟩] ∧
          specs.length = F.params.length ∧
          ∀ (i : Nat) v, (slots ce')[i]? = some v → specs[i]? = slotSpec a M' ce' i v := by
  obtain ⟨x, rfl, rfl⟩ := cloneCodeRegion_extraction hM hbs h
  have hF := x.find_function
  have hA := x.aligned hagg
  refine ⟨x.cloned.newFunction, hF, hA, ?_⟩
  intro a storeInfo r hst hr
  obtain ⟨-, -, -, ds, hds, -, hrec⟩ := recordInfo_spec hr
  obtain ⟨G, hG, hlen, hinfo⟩ := hrec hst
  obtain rfl : x.cloned.newFunction = G := Option.some.inj (hF.symm.trans hG)
  obtain ⟨hdl, hdir⟩ := generateArgDirection_slot hds
  obtain ⟨hvl, hvar⟩ := argIteratorVariance_slot a hdl
  refine ⟨_, hinfo, ?_, fun i v hv => ?_⟩
  · simp only [argSpecs, List.length_map, List.length_zip, hvl, hlen, Nat.min_self]
  · obtain ⟨d, hd, he⟩ := hdir i v hv
    rw [argSpecs_getElem? (hA.params i v hv) hd (hvar i v hv), slotSpec, he]
    rfl

end Alignment

theorem sumLoop_wf : sumLoop.WF := by
  refine ⟨⟨by decide, by decide, by decide, by decide⟩, by decide, by decide, ?_⟩
  decide

theorem cloneCodeRegion_aligned_sumLoop :
    ∃ ce ce' M' f F, preparedExtractor sumArgs sumLoop sumInfo = some ce ∧
      cloneCodeRegion ce sumLoop = some (ce', M', some f) ∧
      M'.funcs.find? (fun g => g.id = f) = some F ∧ Aligned M' ce' F := by
  have hrun : ((preparedExtractor sumArgs sumLoop sumInfo).bind fun ce =>
      (cloneCodeRegion ce sumLoop).bind fun r => r.2.2).isSome = true := by decide
  have hblocks : (preparedExtractor sumArgs sumLoop sumInfo).all (fun ce => ce.blocks.elems = [2]) =
      true := by decide
  have hagg : (preparedExtractor sumArgs sumLoop sumInfo).all (fun ce => !ce.aggregateArgs) = true := by
    decide
  obtain ⟨f, hf⟩ := Option.isSome_iff_exists.mp hrun
  obtain ⟨ce, hce, hf⟩ := Option.bind_eq_some_iff.mp hf
  obtain ⟨⟨ce', M', f'⟩, hrun, hf⟩ := Option.bind_eq_some_iff.mp hf
  obtain rfl : f' = some f := hf
  rw [hce] at hblocks hagg
  have hbs : ∀ b ∈ ce.blocks.elems, ∃ x ∈ sumLoop.blocks, x.id = b := by
    rw [of_decide_eq_true hblocks]
    decide
  obtain ⟨F, hF, hA, -⟩ := cloneCodeRegion_aligned sumLoop_wf hbs (by simpa using hagg) hrun
  exact ⟨ce, ce', M', f, F, hce, hrun, hF, hA⟩

end Atrox
