import Atrox.Transforms.IteratorInput

/-!
# Positions of parameters

`cloneFunction` finds parameters by their position in the list of by-value inputs and
outputs, which the aggregated layout replaces by one struct pointer.
-/

namespace Atrox
open IR Lib

section Positions
variable (c : CloneCtx)

/- Where a by-value input is read: with aggregation `AI` stays at the first parameter. -/
def CloneCtx.inputPosition (i : Nat) : Nat := if c.ce.aggregateArgs then 0 else i

/- Where the output of a bidirectional input is read and stored. -/
def CloneCtx.outputPosition (v : Value) : Nat := c.usedInputs.length + c.outputIndex v

theorem argAt_isSome {f : FuncId} {params : List Ty} {k : Nat} :
    (argAt f params k).isSome = true ↔ k < params.length := by
  rw [argAt, Option.isSome_map]
  simp

/- The code finds the parameter of a position exactly when the new function has one there. -/
theorem rewriteInput_isSome (M : Module) (vi : Value × Nat) :
    (c.rewriteInput M vi).isSome = true ↔ c.inputPosition vi.2 < c.params.length := by
  rw [← argAt_isSome (f := c.newFunction), CloneCtx.rewriteInput, CloneCtx.inputPosition]
  cases c.ce.aggregateArgs with
  | true =>
    simp only [if_true]
    cases argAt c.newFunction c.params 0 <;> rfl
  | false =>
    simp only [Bool.false_eq_true, if_false]
    cases argAt c.newFunction c.params vi.2 <;> rfl

theorem outputOf_isSome (v : Value) : (c.outputOf v).isSome = true ↔
    c.outputIndex v < c.ce.outputs.length ∧ c.outputPosition v < c.params.length := by
  have hlen : (c.ce.outputs.elems[c.outputIndex v]?).isSome = true ↔ c.outputIndex v < c.ce.outputs.length := by
    rw [SetVector.length]
    simp
  rw [← argAt_isSome (f := c.newFunction), ← hlen, CloneCtx.outputOf, CloneCtx.outputPosition]
  cases c.ce.outputs.elems[c.outputIndex v]? with
  | none => simp
  | some o =>
    cases argAt c.newFunction c.params (c.usedInputs.length + c.outputIndex v) with
    | none => simp
    | some a => simp

theorem mapM_some {α β : Type} {f : α → Option β} {as : List α} (h : ∀ a ∈ as, ∃ b, f a = some b) :
    ∃ bs, as.mapM f = some bs := by
  induction as with
  | nil => exact ⟨[], rfl⟩
  | cons a as ih =>
    obtain ⟨b, hb⟩ := h a (List.mem_cons_self ..)
    obtain ⟨bs, hbs⟩ := ih fun x hx => h x (List.mem_cons_of_mem a hx)
    refine ⟨b :: bs, ?_⟩
    rw [List.mapM_cons, hb, hbs]
    rfl

/- Without memory info there are always directions. -/
theorem generateArgDirection_none (M : Module) (inputs outputs : ValueSet) :
    ∃ ds, generateArgDirection M inputs outputs none = some ds := by
  have hin : ∀ v ∈ inputs.elems, ∃ d, inputDirection M none v = some d := by
    intro v _
    rw [inputDirection]
    split
    · exact ⟨_, rfl⟩
    · exact ⟨_, rfl⟩
  obtain ⟨is, his⟩ := mapM_some hin
  have hout : ∀ v ∈ outputs.elems, ∃ d, outputDirection M none v = some d := fun v _ => ⟨_, rfl⟩
  obtain ⟨os, hos⟩ := mapM_some hout
  exact ⟨is ++ os, by rw [generateArgDirection, his, Option.bind_some, hos]; rfl⟩

/- The parameters that the code looks for stand at these positions, and are found exactly if they exist. -/
structure PositionsRead : Prop where
  inputs : ∀ M, ∀ vi ∈ c.usedInputs.zipIdx, (c.rewriteInput M vi).isSome = true ↔ c.inputPosition vi.2 < c.params.length
  outputs : ∀ v ∈ c.bidirectional, (c.outputOf v).isSome = true ↔ c.outputPosition v < c.params.length

theorem PositionsRead.of_index (hindex : ∀ v ∈ c.bidirectional, c.outputIndex v < c.ce.outputs.length) :
    PositionsRead c where
  inputs := fun M vi _ => rewriteInput_isSome c M vi
  outputs := fun v hv => (outputOf_isSome c v).trans (and_iff_right (hindex v hv))

/- Every parameter that is read or stored to exists, and there are as many parameters as
`GenerateArgDirection` gives directions. -/
structure ParametersExist : Prop where
  inputs : ∀ vi ∈ c.usedInputs.zipIdx, c.inputPosition vi.2 < c.params.length
  outputs : ∀ v ∈ c.bidirectional, c.outputPosition v < c.params.length
  count : ∀ N mai ds, generateArgDirection N c.ce.getPureInputs c.ce.getOutputs mai = some ds →
    c.params.length = ds.length

/- Whatever the layout of the parameters, outputs are indexed inside their list. -/
theorem ParametersExist.iff_of_index (hparams : c.params = paramTypes c.ce.aggregateArgs c.usedInputs c.ce.outputs.elems)
    (hindex : ∀ v ∈ c.bidirectional, c.outputIndex v < c.ce.outputs.length) :
    ParametersExist c ↔ c.ce.aggregateArgs = false ∨ c.ce.getPureInputs.length + c.ce.getOutputs.length ≤ 1 := by
  have hpure : c.usedInputs.length = c.ce.getPureInputs.length := rfl
  have hout : c.ce.outputs.length = c.ce.getOutputs.length := rfl
  have hzip : ∀ vi ∈ c.usedInputs.zipIdx, vi.2 < c.usedInputs.length := fun vi hvi => by
    have := List.snd_lt_of_mem_zipIdx hvi
    omega
  have hcount : ∀ {N mai ds}, generateArgDirection N c.ce.getPureInputs c.ce.getOutputs mai = some ds →
      ds.length = c.ce.getPureInputs.length + c.ce.getOutputs.length := fun h =>
    (generateArgDirection_slot h).1.trans (slots_length c.ce)
  cases hagg : c.ce.aggregateArgs with
  | false =>
    -- one parameter for each slot
    have hlen : c.params.length = c.usedInputs.length + c.ce.outputs.length := by
      rw [hparams, paramTypes, hagg]
      simp only [Bool.false_eq_true, if_false, List.length_append, List.length_map, SetVector.length]
    refine ⟨fun _ => .inl rfl, fun _ => ⟨fun vi hvi => ?_, fun v hv => ?_, fun N mai ds hds => ?_⟩⟩
    · have := hzip vi hvi
      rw [CloneCtx.inputPosition, hagg]
      simp only [Bool.false_eq_true, if_false]
      omega
    · have := hindex v hv
      rw [CloneCtx.outputPosition]
      omega
    · rw [hcount hds]
      omega
  | true =>
    -- one parameter for all slots
    have hlen : c.params.length = min 1 (c.usedInputs.length + c.ce.outputs.length) := by
      rw [hparams, paramTypes, hagg]
      simp only [if_true]
      split
      · next h =>
        have : c.usedInputs.length + c.ce.outputs.length > 0 := h
        rw [List.length_singleton]
        omega
      · next h =>
        have : ¬ c.usedInputs.length + c.ce.outputs.length > 0 := h
        rw [List.length_append, List.length_map, List.length_map]
        change c.usedInputs.length + c.ce.outputs.length = _
        omega
    constructor
    · intro h
      obtain ⟨ds, hds⟩ := generateArgDirection_none ⟨[], 0, fun _ => "", fun _ => false⟩
        c.ce.getPureInputs c.ce.getOutputs
      have h1 := h.count _ none _ hds
      have h2 := hcount hds
      refine .inr ?_
      omega
    · rintro (h | h)
      · cases h
      · refine ⟨fun vi hvi => ?_, fun v hv => ?_, fun N mai ds hds => ?_⟩
        · have := hzip vi hvi
          rw [CloneCtx.inputPosition, hagg, if_pos rfl]
          omega
        · have := hindex v hv
          rw [CloneCtx.outputPosition]
          omega
        · rw [hcount hds]
          omega

end Positions

section Run
variable {ce₀ ce ce' : CodeExtractor} {M M' : Module} {header header' : BlockId} {acc : Option (List InstId)}

theorem followRAUW_value {β : Type} {src dst v : Value} {t : β} {m : AList fun _ : Value => β}
    (h : (followRAUW src dst m).lookup v = some t) : ∃ w, m.lookup w = some t := by
  unfold followRAUW at h
  have herase : ∀ w, (m.erase src).lookup w = some t → m.lookup w = some t := by
    intro w hw
    by_cases hs : w = src
    · rw [hs, AList.lookup_erase] at hw
      cases hw
    · rwa [AList.lookup_erase_ne hs] at hw
  split at h
  · exact ⟨v, h⟩
  · next u hu =>
    split at h
    · exact ⟨v, herase v h⟩
    · by_cases hd : v = dst
      · rw [hd, AList.lookup_insert] at h
        exact ⟨src, hu.trans h⟩
      · rw [AList.lookup_insert_ne hd] at h
        exact ⟨v, herase v h⟩

/- Severing drops indices but makes no new ones. -/
theorem severSplitPHINodes_indices (h : severSplitPHINodes ce M header = some (ce', M', header')) {v : Value} {n : Nat}
    (hv : ce'.inputToOutputMap.lookup v = some n) : ∃ w, ce.inputToOutputMap.lookup w = some n := by
  have hrun := severSplitPHINodes_run (P := fun c _ => ∀ v n, c.inputToOutputMap.lookup v = some n →
    ∃ w, ce.inputToOutputMap.lookup w = some n) h ?_ ?_ ?_
  · rcases hrun with ⟨rfl, -, -⟩ | ⟨-, hkeep⟩
    · exact ⟨v, hv⟩
    · exact hkeep v n hv
  · exact fun _ _ _ _ v n hl => ⟨v, hl⟩
  · exact fun _ _ _ hP => hP
  · rintro c N c' N' pn hP hstep v n hl
    obtain ⟨PN, moved, kept, -, -, -, rfl, rfl⟩ := severPHI_inv hstep
    obtain ⟨w, hw⟩ := followRAUW_value hl
    exact hP w n hw

/- `outputs[InputToOutputMap[v]]` exists when `cloneFunction` runs, a missing entry being 0. -/
theorem severed_outputIndex (hM : M.WF) (hp : ce₀.prepare M = some ce)
    (h : severSplitPHINodes { ce with accesses := acc } M header = some (ce', M', header'))
    (hsets : ce'.outputs = ce.outputs) (hins : ce'.inputs = ce.inputs) {v : Value} (hv : v ∈ ce'.inputs) (hb : ce'.isBidirectional v = true) :
    (ce'.inputToOutputMap.lookup v).getD 0 < ce'.outputs.length := by
  have hmaps := findAll_maps ce₀ M
  obtain ⟨hio, hoi⟩ := prepare_maps hp
  rw [hsets, prepare_outputs hp, SetVector.length]
  cases hl : ce'.inputToOutputMap.lookup v with
  | some n =>
    obtain ⟨w, hw⟩ := severSplitPHINodes_indices h hl
    rw [show CodeExtractor.inputToOutputMap { ce with accesses := acc } = _ from hio] at hw
    obtain ⟨-, o, -, ho⟩ := hmaps.toOutput w n hw
    exact (List.getElem?_eq_some_iff.mp ho).1
  | none =>
    -- an input is bidirectional only if there is an output
    rw [hins] at hv
    rw [severed_isBidirectional hM hp h v hv, CodeExtractor.isBidirectional, hoi, isBidirectional_iff] at hb
    have ho : ∃ o, o ∈ (ce₀.findAll M).outputs := by
      rcases hb with hk | ⟨o, hi⟩
      · obtain ⟨w, hw⟩ := Option.isSome_iff_exists.mp (AList.lookup_isSome.mpr hk)
        exact ⟨v, (hmaps.toInput v w hw).1⟩
      · exact ⟨o, (hmaps.toInput o v hi).1⟩
    obtain ⟨o, ho⟩ := ho
    exact List.length_pos_of_mem ho

/- The parameters that `cloneFunction` works with exist exactly if arguments are not
aggregated or there is at most one. -/
theorem cloneFunction_parameters_iff (hM : M.WF) (hbs : ∀ b ∈ ce.blocks.elems, ∃ x ∈ M.blocks, x.id = b)
    (hheader : header ∈ ce.blocks) (hp : ce₀.prepare M = some ce)
    (h : severSplitPHINodes { ce with accesses := acc } M header = some (ce', M', header')) (clones : List BlockId) (n : Nat) :
    PositionsRead (cloneCtx ce' clones n) ∧ (ParametersExist (cloneCtx ce' clones n) ↔
      ce.aggregateArgs = false ∨ ce.getPureInputs.length + ce.getOutputs.length ≤ 1) := by
  have hsets := (severSplitPHINodes_from hM (by exact hbs) (by exact hheader) h).sets
  have hpure : ce'.getPureInputs = ce.getPureInputs := severed_getPureInputs hM hp hsets.inputs hsets.stackAllocas h
  have hout : ce'.getOutputs = ce.getOutputs := hsets.outputs
  have hagg : ce'.aggregateArgs = ce.aggregateArgs := hsets.aggregateArgs
  have hindex : ∀ v ∈ (cloneCtx ce' clones n).bidirectional,
      (cloneCtx ce' clones n).outputIndex v < (cloneCtx ce' clones n).ce.outputs.length := fun v hv => by
    obtain ⟨hv, hb⟩ := List.mem_filter.mp hv
    exact severed_outputIndex hM hp h hsets.outputs hsets.inputs hv hb
  rw [← hpure, ← hout, ← hagg]
  exact ⟨.of_index _ hindex, ParametersExist.iff_of_index (cloneCtx ce' clones n) rfl hindex⟩

theorem cloneFunction_parameters_sumLoop : ∃ ce ce' M' header', preparedExtractor sumArgs sumLoop sumInfo = some ce ∧
    severSplitPHINodes { ce with accesses := none } sumLoop 2 = some (ce', M', header') ∧
    PositionsRead (cloneCtx ce' [32] 60) ∧ (ParametersExist (cloneCtx ce' [32] 60) ↔
      ce.aggregateArgs = false ∨ ce.getPureInputs.length + ce.getOutputs.length ≤ 1) := by
  have hrun : ((preparedExtractor sumArgs sumLoop sumInfo).bind fun ce =>
      if ce.blocks.elems = [2] then severSplitPHINodes { ce with accesses := none } sumLoop 2 else none).isSome = true := by
    decide
  obtain ⟨⟨ce', M', header'⟩, hr⟩ := Option.isSome_iff_exists.mp hrun
  obtain ⟨ce, hce, hr⟩ := Option.bind_eq_some_iff.mp hr
  split at hr
  · next hblocks =>
    obtain ⟨ce₀, hp, -⟩ := preparedExtractor_spec hce
    refine ⟨ce, ce', M', header', hce, hr, cloneFunction_parameters_iff sumLoop_wf ?_ ?_ hp hr [32] 60⟩
    · rw [hblocks]
      decide
    · rw [SetVector.mem_def, hblocks]
      exact List.mem_singleton_self 2
  · cases hr

def aggregatedArgs : CloneLoopArgs := { sumArgs with aggregateArgs := true }

/- The parameter of the running sum is looked for behind the only one, the struct. -/
theorem sumLoop_aggregated : ∃ ce ce' M' header', preparedExtractor aggregatedArgs sumLoop sumInfo = some ce ∧
    severSplitPHINodes ce sumLoop 2 = some (ce', M', header') ∧ ¬ ParametersExist (cloneCtx ce' [32] 60) ∧
    cloneLoop aggregatedArgs sumLoop [] = none := by
  have hrun : ((preparedExtractor aggregatedArgs sumLoop sumInfo).bind fun ce =>
      (severSplitPHINodes ce sumLoop 2).bind fun r => if .inst 11 (.int 32) ∈ (cloneCtx r.1 [32] 60).bidirectional ∧
        ¬ (cloneCtx r.1 [32] 60).outputPosition (.inst 11 (.int 32)) < (cloneCtx r.1 [32] 60).params.length
        then some r else none).isSome = true := by decide
  obtain ⟨⟨ce', M', header'⟩, hr⟩ := Option.isSome_iff_exists.mp hrun
  obtain ⟨ce, hce, hr⟩ := Option.bind_eq_some_iff.mp hr
  obtain ⟨r, hsever, hr⟩ := Option.bind_eq_some_iff.mp hr
  split at hr
  · next hpos =>
    obtain rfl := Option.some.inj hr
    exact ⟨ce, ce', M', header', hce, hsever, fun h => hpos.2 (h.outputs _ hpos.1), by decide⟩
  · cases hr

end Run

end Atrox
