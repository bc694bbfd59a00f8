import Atrox.Transforms.PreparedSets

/-!
# Inputs that share an output

`mapInputsOutputs` fills two maps, and in each of them later entries replace earlier ones.
An input PHI stays bidirectional through any output that it is the last to have, while its
own output is the last one among its incoming values.
-/

namespace Atrox
open IR Lib

/- Incoming values of an input that is a PHI. -/
def phiIncoming (M : Module) : Value → List Value
  | .inst i _ => match M.inst? i with
    | some phi => if phi.isPHI then phi.operands else []
    | none => []
  | _ => []

/- The last incoming value that is an output. -/
def lastOutput (M : Module) (outputs : ValueSet) (v : Value) : Option Value :=
  ((phiIncoming M v).filter fun o => o ∈ outputs).getLast?

/- The last of the inputs that has the output among its incoming values. -/
def lastInput (M : Module) (inputs : List Value) (o : Value) : Option Value :=
  (inputs.filter fun v => o ∈ phiIncoming M v).getLast?

/- The input is no output, and the last one that has some output that is no input. -/
structure KeepsOutput (M : Module) (inputs outputs : ValueSet) (v : Value) : Prop where
  input : v ∈ inputs
  notOutput : v ∉ outputs
  last : ∃ o ∈ outputs, o ∉ inputs ∧ lastInput M inputs.elems o = some v

/- `outputs[InputToOutputMap[v]]`, for a key of the map. -/
def mappedOutput (outputs : ValueSet) (maps : IOMaps) (v : Value) : Option Value :=
  (maps.1.lookup v).bind fun n => outputs.elems[n]?

/- Different bidirectional inputs are mapped to different outputs. -/
def OwnOutputs (inputs outputs : ValueSet) (maps : IOMaps) : Prop :=
  ∀ v ∈ inputs, ∀ w ∈ inputs, v ≠ w → isBidirectional v maps.2 = true → isBidirectional w maps.2 = true →
    ∃ o p, mappedOutput outputs maps v = some o ∧ mappedOutput outputs maps w = some p ∧ o ≠ p

section Lookup
variable (M : Module) (inputs outputs : ValueSet)

theorem mapInput_eq (maps : IOMaps) (v : Value) :
    mapInput M outputs maps v = (phiIncoming M v).foldl (mapIncoming outputs v) maps := by
  cases v with
  | inst i t =>
    rw [mapInput, phiIncoming]
    cases M.inst? i with
    | none => rfl
    | some phi =>
      dsimp only
      split <;> rfl
  | _ => rfl

theorem mapIncoming_lookup (v : Value) (ps : List Value) (maps : IOMaps) (x : Value) :
    ((ps.foldl (mapIncoming outputs v) maps).1.lookup x =
      if x = v then ((ps.filter fun o => o ∈ outputs).getLast?.map fun o => outputs.elems.idxOf o).or (maps.1.lookup x)
      else maps.1.lookup x) ∧
    (ps.foldl (mapIncoming outputs v) maps).2.lookup x =
      if x ∈ ps ∧ x ∈ outputs then some v else maps.2.lookup x := by
  induction ps using List.reverseRecOn with
  | nil => simp
  | append_singleton ps p ih =>
    obtain ⟨h1, h2⟩ := ih
    rw [List.foldl_concat, List.filter_append]
    generalize ps.foldl (mapIncoming outputs v) maps = m at h1 h2 ⊢
    rw [mapIncoming]
    by_cases hp : p ∈ outputs
    · rw [if_pos hp, List.filter_cons_of_pos (by simpa using hp), List.filter_nil, List.getLast?_concat]
      constructor
      · by_cases hx : x = v
        · subst hx
          rw [AList.lookup_insert, if_pos rfl]
          rfl
        · rw [AList.lookup_insert_ne hx, h1, if_neg hx, if_neg hx]
      · by_cases hx : x = p
        · subst hx
          rw [AList.lookup_insert, if_pos ⟨by simp, hp⟩]
        · rw [AList.lookup_insert_ne hx, h2]
          simp [hx]
    · rw [if_neg hp, List.filter_cons_of_neg (by simpa using hp), List.filter_nil, List.append_nil]
      refine ⟨h1, h2.trans ?_⟩
      by_cases hx : x = p
      · subst hx
        simp [hp]
      · simp [hx]

/- After the first loop an input has its last output, and an output its last input. -/
theorem mapInput_lookup {vs : List Value} (hnd : vs.Nodup) (x : Value) :
    ((vs.foldl (mapInput M outputs) (∅, ∅)).1.lookup x =
      if x ∈ vs then (lastOutput M outputs x).map fun o => outputs.elems.idxOf o else none) ∧
    (vs.foldl (mapInput M outputs) (∅, ∅)).2.lookup x = if x ∈ outputs then lastInput M vs x else none := by
  induction vs using List.reverseRecOn with
  | nil =>
    refine ⟨rfl, ?_⟩
    split <;> rfl
  | append_singleton vs v ih =>
    obtain ⟨hnd', -, hdis⟩ := List.nodup_append.mp hnd
    have hv : v ∉ vs := fun hm => hdis v hm v (List.mem_singleton_self v) rfl
    obtain ⟨h1, h2⟩ := ih hnd'
    rw [List.foldl_concat, mapInput_eq]
    obtain ⟨k1, k2⟩ := mapIncoming_lookup outputs v (phiIncoming M v) (vs.foldl (mapInput M outputs) (∅, ∅)) x
    rw [k1, k2, h1, h2]
    constructor
    · by_cases hx : x = v
      · subst hx
        rw [if_pos rfl, if_neg hv, Option.or_none, if_pos (by simp)]
        rfl
      · simp [hx]
    · by_cases hx : x ∈ outputs
      · by_cases hxv : x ∈ phiIncoming M v
        · rw [if_pos ⟨hxv, hx⟩, if_pos hx, lastInput, List.filter_append,
            List.filter_cons_of_pos (by simpa using hxv), List.filter_nil, List.getLast?_concat]
        · rw [if_neg fun h => hxv h.1, if_pos hx, if_pos hx, lastInput, lastInput, List.filter_append,
            List.filter_cons_of_neg (by simpa using hxv), List.filter_nil, List.append_nil]
      · rw [if_neg fun h => hx h.2, if_neg hx, if_neg hx]

theorem lastOutput_mem {v o : Value} (h : lastOutput M outputs v = some o) : o ∈ phiIncoming M v ∧ o ∈ outputs := by
  have hm := List.mem_filter.mp (List.mem_of_getLast? h)
  exact ⟨hm.1, by simpa using hm.2⟩

theorem lastInput_mem {vs : List Value} {v o : Value} (h : lastInput M vs o = some v) :
    v ∈ vs ∧ o ∈ phiIncoming M v := by
  have hm := List.mem_filter.mp (List.mem_of_getLast? h)
  exact ⟨hm.1, by simpa using hm.2⟩

end Lookup

section Shared
variable (M : Module) (inputs outputs : ValueSet)

/- The maps in the end. -/
theorem mapInputsOutputs_lookup (x : Value) :
    ((mapInputsOutputs M inputs outputs (∅, ∅)).1.lookup x =
      if x ∈ outputs ∧ x ∈ inputs then some (outputs.elems.idxOf x)
      else if x ∈ inputs then (lastOutput M outputs x).map fun o => outputs.elems.idxOf o else none) ∧
    (mapInputsOutputs M inputs outputs (∅, ∅)).2.lookup x =
      if x ∈ outputs ∧ x ∈ inputs then some x
      else if x ∈ outputs then lastInput M inputs.elems x else none := by
  obtain ⟨h2, h1⟩ := mapOutput_lookup inputs outputs outputs.elems (inputs.elems.foldl (mapInput M outputs) (∅, ∅)) x
  obtain ⟨k1, k2⟩ := mapInput_lookup M outputs inputs.nodup x
  rw [k1] at h1
  rw [k2] at h2
  exact ⟨h1, h2⟩

/- Which inputs are bidirectional. -/
theorem isBidirectional_mapped {v : Value} (hv : v ∈ inputs) :
    isBidirectional v (mapInputsOutputs M inputs outputs (∅, ∅)).2 = true ↔
      v ∈ outputs ∨ KeepsOutput M inputs outputs v := by
  rw [isBidirectional_iff]
  constructor
  · intro h
    by_cases hout : v ∈ outputs
    · exact .inl hout
    rcases h with hkey | ⟨o, ho⟩
    · obtain ⟨w, hw⟩ := Option.isSome_iff_exists.mp (AList.lookup_isSome.mpr hkey)
      rw [(mapInputsOutputs_lookup M inputs outputs v).2, if_neg fun h => hout h.1, if_neg hout] at hw
      cases hw
    · rw [(mapInputsOutputs_lookup M inputs outputs o).2] at ho
      split at ho
      · next hoo => exact absurd (Option.some.inj ho ▸ hoo.1) hout
      · next hno =>
        split at ho
        · next hoo => exact .inr ⟨hv, hout, o, hoo, fun hi => hno ⟨hoo, hi⟩, ho⟩
        · cases ho
  · rintro (hout | hkeep)
    · refine .inr ⟨v, ?_⟩
      rw [(mapInputsOutputs_lookup M inputs outputs v).2, if_pos ⟨hout, hv⟩]
    · obtain ⟨o, hoo, hno, hlast⟩ := hkeep.last
      refine .inr ⟨o, ?_⟩
      rw [(mapInputsOutputs_lookup M inputs outputs o).2, if_neg fun h => hno h.2, if_pos hoo, hlast]

theorem mappedOutput_output {v : Value} (hv : v ∈ inputs) (ho : v ∈ outputs) :
    mappedOutput outputs (mapInputsOutputs M inputs outputs (∅, ∅)) v = some v := by
  rw [mappedOutput, (mapInputsOutputs_lookup M inputs outputs v).1, if_pos ⟨ho, hv⟩, Option.bind_some,
    idxOf_getElem? ho]

theorem mappedOutput_last {v : Value} (hv : v ∈ inputs) (ho : v ∉ outputs) :
    mappedOutput outputs (mapInputsOutputs M inputs outputs (∅, ∅)) v = lastOutput M outputs v := by
  rw [mappedOutput, (mapInputsOutputs_lookup M inputs outputs v).1, if_neg fun h => ho h.1, if_pos hv]
  cases hlast : lastOutput M outputs v with
  | none => rfl
  | some o => exact idxOf_getElem? (lastOutput_mem M outputs hlast).2

/- An input that keeps an output has a last one. -/
theorem KeepsOutput.lastOutput {v : Value} (h : KeepsOutput M inputs outputs v) :
    ∃ o, lastOutput M outputs v = some o := by
  obtain ⟨o, ho, -, hlast⟩ := h.last
  have hm : o ∈ (phiIncoming M v).filter fun o => o ∈ outputs :=
    List.mem_filter.mpr ⟨(lastInput_mem M hlast).2, by simpa using ho⟩
  exact Option.isSome_iff_exists.mp (List.getLast?_isSome.mpr (List.ne_nil_of_mem hm))

/- Bidirectional inputs have outputs of their own exactly if no input that keeps an output
has its last output in common with another such input, or has an input for it. -/
theorem mapInputsOutputs_own_iff :
    OwnOutputs inputs outputs (mapInputsOutputs M inputs outputs (∅, ∅)) ↔
      (∀ v, KeepsOutput M inputs outputs v → ∀ o, lastOutput M outputs v = some o → o ∉ inputs) ∧
      ∀ v w, KeepsOutput M inputs outputs v → KeepsOutput M inputs outputs w → v ≠ w →
        lastOutput M outputs v ≠ lastOutput M outputs w := by
  have hbid := fun {v} hv => isBidirectional_mapped M inputs outputs (v := v) hv
  constructor
  · intro h
    constructor
    · intro v hkeep o hlast hin
      obtain ⟨-, hout⟩ := lastOutput_mem M outputs hlast
      have hne : v ≠ o := fun he => hkeep.notOutput (he ▸ hout)
      obtain ⟨p, q, hp, hq, hpq⟩ := h v hkeep.input o hin hne ((hbid hkeep.input).mpr (.inr hkeep))
        ((hbid hin).mpr (.inl hout))
      rw [mappedOutput_last M inputs outputs hkeep.input hkeep.notOutput, hlast] at hp
      rw [mappedOutput_output M inputs outputs hin hout] at hq
      exact hpq ((Option.some.inj hp).symm.trans (Option.some.inj hq))
    · intro v w hv hw hne heq
      obtain ⟨p, q, hp, hq, hpq⟩ := h v hv.input w hw.input hne ((hbid hv.input).mpr (.inr hv))
        ((hbid hw.input).mpr (.inr hw))
      rw [mappedOutput_last M inputs outputs hv.input hv.notOutput, heq] at hp
      rw [mappedOutput_last M inputs outputs hw.input hw.notOutput] at hq
      exact hpq (Option.some.inj (hp.symm.trans hq))
  · rintro ⟨hinput, hother⟩ v hv w hw hne hbv hbw
    rcases (hbid hv).mp hbv with hvo | hvk
    · rcases (hbid hw).mp hbw with hwo | hwk
      · exact ⟨v, w, mappedOutput_output M inputs outputs hv hvo, mappedOutput_output M inputs outputs hw hwo, hne⟩
      · obtain ⟨o, ho⟩ := hwk.lastOutput
        refine ⟨v, o, mappedOutput_output M inputs outputs hv hvo,
          (mappedOutput_last M inputs outputs hw hwk.notOutput).trans ho, fun he => ?_⟩
        exact hinput w hwk o ho (he ▸ hv)
    · obtain ⟨o, ho⟩ := hvk.lastOutput
      have hmap := (mappedOutput_last M inputs outputs hv hvk.notOutput).trans ho
      rcases (hbid hw).mp hbw with hwo | hwk
      · exact ⟨o, w, hmap, mappedOutput_output M inputs outputs hw hwo, fun he => hinput v hvk o ho (he ▸ hw)⟩
      · obtain ⟨p, hp⟩ := hwk.lastOutput
        refine ⟨o, p, hmap, (mappedOutput_last M inputs outputs hw hwk.notOutput).trans hp, fun he => ?_⟩
        exact hother v w hvk hwk hne (by rw [ho, hp, he])

/- A loop with two latches, 3 and 4. Both counters start the next round with 14 behind latch 4. -/
def twoLatches : Module where
  funcs := [{ id := 9, params := [⟨"c", .int 1⟩], isVarArg := false, blocks :=
    [⟨0, [Inst.uncondBr 20 1], false⟩,
     ⟨1, [⟨10, .phi, .int 32, [.const (.int 32 0), .inst 12 (.int 32), .inst 14 (.int 32)], [0, 3, 4], []⟩,
          ⟨11, .phi, .int 32, [.const (.int 32 0), .inst 13 (.int 32), .inst 14 (.int 32)], [0, 3, 4], []⟩,
          ⟨21, .br, .void, [.arg 9 0 (.int 1)], [], [2, 5]⟩], false⟩,
     ⟨2, [⟨12, .add, .int 32, [.inst 10 (.int 32), .const (.int 32 1)], [], []⟩,
          ⟨13, .add, .int 32, [.inst 11 (.int 32), .const (.int 32 2)], [], []⟩,
          ⟨14, .add, .int 32, [.inst 10 (.int 32), .inst 11 (.int 32)], [], []⟩,
          ⟨22, .br, .void, [.arg 9 0 (.int 1)], [], [3, 4]⟩], false⟩,
     ⟨3, [Inst.uncondBr 23 1], false⟩,
     ⟨4, [Inst.uncondBr 24 1], false⟩,
     ⟨5, [⟨25, .ret, .void, [], [], []⟩], false⟩] }]
  nextId := 30
  valueName := fun _ => ""
  initUsesBlockAddress := fun _ => false

/- The inputs 10 and 11 of block 2 are both mapped to the output 14. -/
theorem twoLatches_share : ¬ OwnOutputs (findInputsOutputs twoLatches (SetVector.ofList [2]) ∅ ∅).1
    (findInputsOutputs twoLatches (SetVector.ofList [2]) ∅ ∅).2
    (mapInputsOutputs twoLatches (findInputsOutputs twoLatches (SetVector.ofList [2]) ∅ ∅).1
      (findInputsOutputs twoLatches (SetVector.ofList [2]) ∅ ∅).2 (∅, ∅)) := by
  intro h
  obtain ⟨o, p, ho, hp, hne⟩ := h (.inst 10 (.int 32)) (by decide) (.inst 11 (.int 32)) (by decide) (by decide)
    (by decide) (by decide)
  have h10 : some o = some (.inst 14 (.int 32)) := ho.symm.trans (by decide)
  have h11 : some p = some (.inst 14 (.int 32)) := hp.symm.trans (by decide)
  exact hne (Option.some.inj (h10.trans h11.symm))

end Shared

end Atrox
