import Atrox.Transforms.LostPHIs
import Atrox.Transforms.SharedOutputs

/-!
# Entries of bidirectional inputs

`mapInputsOutputs` leaves an index for each bidirectional input. When the header is severed its PHIs hand
their indices on to the new PHIs, so one that is an input, as the base of a GEP that
`findGlobalInputsOutputs` leaves in its list, has none when `cloneFunction` looks for it.
-/

namespace Atrox
open IR Lib

/- The output of a bidirectional input is the input itself or an incoming value of it. -/
theorem mappedOutput_incoming {M : Module} {inputs outputs : ValueSet} {v : Value} (hv : v ∈ inputs)
    (hb : isBidirectional v (mapInputsOutputs M inputs outputs (∅, ∅)).2 = true) :
    ∃ o, mappedOutput outputs (mapInputsOutputs M inputs outputs (∅, ∅)) v = some o ∧
      (o = v ∨ o ∈ phiIncoming M v) := by
  rcases (isBidirectional_mapped M inputs outputs hv).mp hb with hout | hkeep
  · exact ⟨v, mappedOutput_output M inputs outputs hv hout, .inl rfl⟩
  · obtain ⟨o, ho⟩ := hkeep.lastOutput
    refine ⟨o, ?_, .inr (lastOutput_mem M outputs ho).1⟩
    rw [mappedOutput_last M inputs outputs hv hkeep.notOutput, ho]

/- After `mapInputsOutputs` each bidirectional input has the index of its output, and `cloneFunction` finds an
index for each. -/
structure BidirectionalEntries (M : Module) (ce' : CodeExtractor) : Prop where
  mapped : ∀ inputs outputs : ValueSet, ∀ v ∈ inputs,
    isBidirectional v (mapInputsOutputs M inputs outputs (∅, ∅)).2 = true →
      ∃ n o, (mapInputsOutputs M inputs outputs (∅, ∅)).1.lookup v = some n ∧ n < outputs.length ∧
        outputs.elems[n]? = some o ∧ (o = v ∨ o ∈ phiIncoming M v)
  found : ∀ v ∈ ce'.inputs, ce'.isBidirectional v = true → (ce'.inputToOutputMap.lookup v).isSome = true

theorem mapInputsOutputs_entry {M : Module} {inputs outputs : ValueSet} {v : Value} (hv : v ∈ inputs)
    (hb : isBidirectional v (mapInputsOutputs M inputs outputs (∅, ∅)).2 = true) :
    ∃ n o, (mapInputsOutputs M inputs outputs (∅, ∅)).1.lookup v = some n ∧ n < outputs.length ∧
      outputs.elems[n]? = some o ∧ (o = v ∨ o ∈ phiIncoming M v) := by
  obtain ⟨o, ho, hov⟩ := mappedOutput_incoming hv hb
  obtain ⟨n, hn, hno⟩ := Option.bind_eq_some_iff.mp ho
  exact ⟨n, o, hn, (List.getElem?_eq_some_iff.mp hno).1, hno, hov⟩

section Run
variable {ce₀ ce ce' : CodeExtractor} {M M' : Module} {header header' : BlockId} {acc : Option (List InstId)}

/- Each bidirectional input has its entry until the function is made exactly when no PHI that is renamed with the
header is such an input. -/
theorem bidirectionalEntries_iff {bbs : List BlockId} {iterInfo : Option IteratorInfo}
    {LBA : Option LoopBoundsAnalyzer} {DT : Option (BlockId → Bool)} {agg varArgs allocas flatten : Bool}
    (hM : M.WF) (hv : Verified M) (h0 : codeExtractor M bbs iterInfo LBA DT agg varArgs allocas flatten = some ce₀)
    (hbs : ∀ b ∈ bbs, ∃ x ∈ M.blocks, x.id = b) (hp : ce₀.prepare M = some ce)
    (hhead : ce.blocks.elems.head? = some header)
    (h : severSplitPHINodes { ce with accesses := acc } M header = some (ce', M', header')) :
    BidirectionalEntries M ce' ↔ ∀ hb, M.block? header = some hb → ∀ pn ∈ renamedPHIs M ce.blocks hb,
      pn.val ∈ ce.inputs → pn.val ∉ ce.outputs ∧
        ¬ KeepsOutput M (ce₀.findAll M).inputs ce.outputs pn.val := by
  have hpad : HeaderNoPad M header := codeExtractor_noPad h0 (prepare_blocks hp ▸ hhead)
  have hexist := prepare_exist h0 hbs hp
  have hins : ce'.inputs = ce.inputs :=
    (severSplitPHINodes_from hM (by exact hexist) (by exact List.mem_of_mem_head? hhead) h).sets.inputs
  obtain ⟨hio, hoi⟩ := prepare_maps hp
  have hmem := prepare_inputs_mem hp
  have hbelow : ∀ v ∈ ce.inputs, v.below M.nextId := by
    intro v hvin
    obtain ⟨i, hi, hvi⟩ := findAll_inputs ((hmem v).mp hvin)
    exact hM.operands_below i (regionInsts_sub hM.toIds hi) v hvi
  have hmapped : ∀ v ∈ ce.inputs, ce'.isBidirectional v =
      isBidirectional v (mapInputsOutputs M (ce₀.findAll M).inputs (ce₀.findAll M).outputs (∅, ∅)).2 := by
    intro v hvin
    rw [severed_isBidirectional hM hp h v hvin, CodeExtractor.isBidirectional, hoi]
    rfl
  have hkind : ∀ v ∈ ce.inputs, ce'.isBidirectional v = true ↔
      v ∈ ce.outputs ∨ KeepsOutput M (ce₀.findAll M).inputs ce.outputs v := by
    intro v hvin
    rw [hmapped v hvin, prepare_outputs hp]
    exact isBidirectional_mapped M _ _ ((hmem v).mp hvin)
  constructor
  · intro hall hb hfind pn hpn hin
    rw [← not_or, ← hkind pn.val hin]
    intro hbid
    have hfound := hall.found pn.val (hins ▸ hin) hbid
    rw [severSplitPHINodes_lookup hM hv hpad h hfind (hbelow _ hin), if_pos (List.mem_map_of_mem hpn)] at hfound
    cases hfound
  · intro hno
    refine ⟨fun _ _ _ hv hb => mapInputsOutputs_entry hv hb, fun v hvin hbid => ?_⟩
    rw [hins] at hvin
    obtain ⟨hb, hfind, -⟩ := severSplitPHINodes_inv h
    have hstays : v ∉ (renamedPHIs M ce.blocks hb).map Inst.val := by
      intro hm
      obtain ⟨pn, hpn, rfl⟩ := List.mem_map.mp hm
      exact (not_or.mpr (hno hb hfind pn hpn hvin)) ((hkind _ hvin).mp hbid)
    rw [severSplitPHINodes_lookup hM hv hpad h hfind (hbelow v hvin), if_neg hstays]
    obtain ⟨n, o, hn, -⟩ := mapInputsOutputs_entry ((hmem v).mp hvin) ((hmapped v hvin).symm.trans hbid)
    exact Option.isSome_iff_exists.mpr ⟨n, (congrArg (AList.lookup v) hio).trans hn⟩

/- Two ways into the loop `do { x = p[0]; q = p + 1; c = x < p[2]; p = q; } while (c);`, behind which `x` and `q` are
used. -/
def walkLoop : Module where
  funcs := [{ id := 9, params := [⟨"a", .ptr (.int 32) 0⟩, ⟨"b", .ptr (.int 32) 0⟩, ⟨"t", .int 1⟩],
              isVarArg := false, blocks :=
    [⟨0, [⟨20, .br, .void, [.arg 9 2 (.int 1)], [], [1, 2]⟩], false⟩,
     ⟨1, [Inst.uncondBr 21 3], false⟩,
     ⟨2, [Inst.uncondBr 22 3], false⟩,
     ⟨3, [⟨10, .phi, .ptr (.int 32) 0, [.arg 9 0 (.ptr (.int 32) 0), .arg 9 1 (.ptr (.int 32) 0),
            .inst 12 (.ptr (.int 32) 0)], [1, 2, 3], []⟩,
          ⟨11, .load, .int 32, [.inst 10 (.ptr (.int 32) 0)], [], []⟩,
          ⟨12, .getElementPtr, .ptr (.int 32) 0, [.inst 10 (.ptr (.int 32) 0), .const (.int 32 1)], [], []⟩,
          ⟨13, .getElementPtr, .ptr (.int 32) 0, [.inst 10 (.ptr (.int 32) 0), .const (.int 32 2)], [], []⟩,
          ⟨14, .load, .int 32, [.inst 13 (.ptr (.int 32) 0)], [], []⟩,
          ⟨15, .other 0, .int 1, [.inst 11 (.int 32), .inst 14 (.int 32)], [], []⟩,
          ⟨23, .br, .void, [.inst 15 (.int 1)], [], [3, 4]⟩], false⟩,
     ⟨4, [⟨16, .load, .int 32, [.inst 12 (.ptr (.int 32) 0)], [], []⟩,
          ⟨17, .add, .int 32, [.inst 11 (.int 32), .inst 16 (.int 32)], [], []⟩,
          ⟨24, .ret, .void, [], [], []⟩], false⟩] }]
  nextId := 30
  valueName := fun _ => ""
  initUsesBlockAddress := fun _ => false

/- The extractors of the loop: constructed, prepared and with the header severed. -/
def walkExtractors : Option (CodeExtractor × CodeExtractor × CodeExtractor × Module × BlockId) := do
  let ce₀ ← codeExtractor walkLoop [3] none none none false false false false
  let ce ← ce₀.prepare walkLoop
  if ce.blocks.elems.head? = some 3 then
    let r ← severSplitPHINodes { ce with accesses := none } walkLoop 3
    return (ce₀, ce, r)
  else none

theorem walkExtractors_spec {ce₀ ce ce' : CodeExtractor} {M' : Module} {header' : BlockId}
    (h : walkExtractors = some (ce₀, ce, ce', M', header')) :
    codeExtractor walkLoop [3] none none none false false false false = some ce₀ ∧ ce₀.prepare walkLoop = some ce ∧
    ce.blocks.elems.head? = some 3 ∧
    severSplitPHINodes { ce with accesses := none } walkLoop 3 = some (ce', M', header') := by
  unfold walkExtractors at h
  obtain ⟨ce₀, h0, h⟩ := Option.bind_eq_some_iff.mp h
  obtain ⟨ce, hp, h⟩ := Option.bind_eq_some_iff.mp h
  split at h
  · next hhead =>
    obtain ⟨r, hr, h⟩ := Option.bind_eq_some_iff.mp h
    cases h
    exact ⟨h0, hp, hhead, hr⟩
  · cases h

/- The base `p` of the second GEP, which is not global, is an input. It has the index 1 of `q`, and once the header
is severed `cloneFunction` takes the index 0 of `x` for it. -/
theorem walkLoop_default : ∃ ce₀ ce ce' M' header', walkExtractors = some (ce₀, ce, ce', M', header') ∧
    .inst 10 (.ptr (.int 32) 0) ∈ ce.inputs ∧ ce.inputToOutputMap.lookup (.inst 10 (.ptr (.int 32) 0)) = some 1 ∧
    ce'.inputToOutputMap.lookup (.inst 10 (.ptr (.int 32) 0)) = none ∧ ¬ BidirectionalEntries walkLoop ce' := by
  have hrun : walkExtractors.any (fun r =>
      decide (.inst 10 (.ptr (.int 32) 0) ∈ r.2.1.inputs) &&
      decide (r.2.1.inputToOutputMap.lookup (.inst 10 (.ptr (.int 32) 0)) = some 1) &&
      decide (r.2.2.1.inputToOutputMap.lookup (.inst 10 (.ptr (.int 32) 0)) = none) &&
      decide (.inst 10 (.ptr (.int 32) 0) ∈ r.2.2.1.inputs) &&
      r.2.2.1.isBidirectional (.inst 10 (.ptr (.int 32) 0))) = true := by decide
  obtain ⟨⟨ce₀, ce, ce', M', header'⟩, hr, hall⟩ := (Option.any_eq_true _ _).mp hrun
  simp only [Bool.and_eq_true, decide_eq_true_eq] at hall
  obtain ⟨⟨⟨⟨hin, hbefore⟩, hafter⟩, hin'⟩, hbid⟩ := hall
  refine ⟨ce₀, ce, ce', M', header', hr, hin, hbefore, hafter, fun h => ?_⟩
  have hfound := h.found _ hin' hbid
  rw [hafter] at hfound
  cases hfound

theorem walkLoop_wf : walkLoop.WF :=
  ⟨⟨by decide, by decide, by decide, by decide⟩, by decide, by decide, by decide⟩

theorem walkLoop_verified : Verified walkLoop where
  entry := by
    intro b hb
    have he : b = 0 := by simpa [Module.isEntryBlock, walkLoop, eq_comm] using hb
    subst he
    decide
  ret := by decide
  terminated := by decide
  phisFirst := by decide
  incoming := by decide

theorem bidirectionalEntries_iff_walkLoop : ∃ ce₀ ce ce' M' header',
    walkExtractors = some (ce₀, ce, ce', M', header') ∧
    (BidirectionalEntries walkLoop ce' ↔ ∀ hb, walkLoop.block? 3 = some hb →
      ∀ pn ∈ renamedPHIs walkLoop ce.blocks hb, pn.val ∈ ce.inputs → pn.val ∉ ce.outputs ∧
        ¬ KeepsOutput walkLoop (ce₀.findAll walkLoop).inputs ce.outputs pn.val) := by
  have hrun : walkExtractors.isSome = true := by decide
  obtain ⟨⟨ce₀, ce, ce', M', header'⟩, hr⟩ := Option.isSome_iff_exists.mp hrun
  obtain ⟨h0, hp, hhead, hsever⟩ := walkExtractors_spec hr
  exact ⟨ce₀, ce, ce', M', header', hr,
    bidirectionalEntries_iff walkLoop_wf walkLoop_verified h0 (by decide) hp hhead hsever⟩

end Run

end Atrox
