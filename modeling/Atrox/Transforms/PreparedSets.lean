import Atrox.Lib.Folds
import Atrox.Transforms.CodeExtractor

/-!
# What `prepare` finds

Where the inputs, the outputs and the two maps between them come from.
-/

namespace Atrox
open IR Lib

/- The value is the input some output is mapped to. -/
def IsImage (m : OutputToInputMapTy) (v : Value) : Prop := ∃ o, m.lookup o = some v

theorem isBidirectional_iff (v : Value) (m : OutputToInputMapTy) :
    isBidirectional v m = true ↔ v ∈ m ∨ IsImage m v := by
  simp only [isBidirectional, List.any_eq_true, Bool.or_eq_true, decide_eq_true_eq]
  constructor
  · rintro ⟨e, he, rfl | rfl⟩
    · exact .inl (AList.mem_keys.mpr (List.mem_map_of_mem he))
    · exact .inr ⟨e.1, AList.mem_lookup_iff.mpr he⟩
  · rintro (hv | ⟨o, ho⟩)
    · obtain ⟨e, he, rfl⟩ := List.mem_map.mp (AList.mem_keys.mp hv)
      exact ⟨e, he, .inl rfl⟩
    · exact ⟨⟨o, v⟩, AList.mem_lookup_iff.mp ho, .inr rfl⟩

section Blocks

theorem insertBlocks_sub {DT : Option (BlockId → Bool)} {bs : List BlockId} {s r : SetVector BlockId}
    (h : insertBlocks DT s bs = some r) : ∀ b ∈ r, b ∈ s ∨ b ∈ bs := by
  induction bs generalizing s with
  | nil =>
    cases h
    exact fun b hb => .inl hb
  | cons c bs ih =>
    intro b hb
    unfold insertBlocks at h
    split at h
    · rcases ih h b hb with hm | hm
      · exact .inl hm
      · exact .inr (List.mem_cons_of_mem c hm)
    · split at h
      · cases h
      · rcases ih h b hb with hm | hm
        · rcases SetVector.mem_insert.mp hm with hm | rfl
          · exact .inl hm
          · exact .inr (List.mem_cons_self ..)
        · exact .inr (List.mem_cons_of_mem c hm)

theorem codeExtractor_blocks {M : Module} {bbs : List BlockId} {iterInfo : Option IteratorInfo}
    {LBA : Option LoopBoundsAnalyzer} {DT : Option (BlockId → Bool)} {agg varArgs allocas flatten : Bool}
    {ce : CodeExtractor}
    (h : codeExtractor M bbs iterInfo LBA DT agg varArgs allocas flatten = some ce) :
    ∀ b ∈ ce.blocks, b ∈ bbs := by
  obtain ⟨blocks, hb, rfl⟩ := Option.map_eq_some_iff.mp h
  unfold buildExtractionBlockSet at hb
  split at hb
  · cases hb
  · obtain ⟨result, hr, rfl⟩ := Option.map_eq_some_iff.mp hb
    intro b hbm
    dsimp only at hbm
    split at hbm
    · rcases insertBlocks_sub hr b hbm with hm | hm
      · exact absurd hm (SetVector.notMem_empty b)
      · exact hm
    · exact absurd hbm (SetVector.notMem_empty b)

end Blocks

section Maps

/- Entries of the maps lead from outputs to inputs and back. -/
structure MapsOf (inputs outputs : ValueSet) (maps : IOMaps) : Prop where
  toInput : ∀ o v, maps.2.lookup o = some v → o ∈ outputs ∧ v ∈ inputs ∧ v ∈ maps.1
  toOutput : ∀ v n, maps.1.lookup v = some n → v ∈ inputs ∧ ∃ o ∈ outputs, outputs.elems[n]? = some o

theorem mapsOf_empty (inputs outputs : ValueSet) : MapsOf inputs outputs (∅, ∅) := by
  constructor
  · intro o v h
    cases h
  · intro v n h
    cases h

theorem idxOf_getElem? {o : Value} {outputs : ValueSet} (ho : o ∈ outputs) :
    outputs.elems[outputs.elems.idxOf o]? = some o :=
  List.getElem?_idxOf ho

theorem MapsOf.insert {inputs outputs : ValueSet} {maps : IOMaps} (h : MapsOf inputs outputs maps)
    {o v : Value} (ho : o ∈ outputs) (hv : v ∈ inputs) :
    MapsOf inputs outputs (maps.1.insert v (outputs.elems.idxOf o), maps.2.insert o v) := by
  constructor
  · intro o' v' hl
    by_cases he : o' = o
    · subst he
      rw [AList.lookup_insert] at hl
      cases hl
      exact ⟨ho, hv, (AList.mem_insert _).mpr (.inl rfl)⟩
    · rw [AList.lookup_insert_ne he] at hl
      obtain ⟨h1, h2, h3⟩ := h.toInput o' v' hl
      exact ⟨h1, h2, (AList.mem_insert _).mpr (.inr h3)⟩
  · intro v' n hl
    by_cases he : v' = v
    · subst he
      rw [AList.lookup_insert] at hl
      cases hl
      exact ⟨hv, o, ho, idxOf_getElem? ho⟩
    · rw [AList.lookup_insert_ne he] at hl
      exact h.toOutput v' n hl

theorem mapInput_spec {M : Module} {inputs outputs : ValueSet} {maps : IOMaps} {v : Value}
    (h : MapsOf inputs outputs maps) (hv : v ∈ inputs) :
    MapsOf inputs outputs (mapInput M outputs maps v) := by
  unfold mapInput
  split
  · split
    · split
      · refine foldl_preserves (P := MapsOf inputs outputs) _ ?_ h
        intro incV m _ hm
        unfold mapIncoming
        split
        · next ho => exact hm.insert ho hv
        · exact hm
      · exact h
    · exact h
  · exact h

theorem mapOutput_spec {inputs outputs : ValueSet} {maps : IOMaps} {o : Value}
    (h : MapsOf inputs outputs maps) (ho : o ∈ outputs) :
    MapsOf inputs outputs (mapOutput inputs outputs maps o) := by
  unfold mapOutput
  split
  · next hi => exact h.insert ho hi
  · exact h

theorem mapInputsOutputs_spec (M : Module) (inputs outputs : ValueSet) :
    MapsOf inputs outputs (mapInputsOutputs M inputs outputs (∅, ∅)) := by
  refine foldl_preserves (P := MapsOf inputs outputs) _ (fun o m ho hm => mapOutput_spec hm ho) ?_
  exact foldl_preserves (P := MapsOf inputs outputs) _ (fun v m hv hm => mapInput_spec hm hv)
    (mapsOf_empty inputs outputs)

/- Inputs are mapped to outputs of their type. -/
def MapTyped (outputs : ValueSet) (m : InputToOutputMapTy) : Prop :=
  ∀ v n, m.lookup v = some n → ∃ o, outputs.elems[n]? = some o ∧ o.ty = v.ty

theorem MapTyped.insert {outputs : ValueSet} {m : InputToOutputMapTy} (h : MapTyped outputs m) {o v : Value}
    (ho : o ∈ outputs) (hty : o.ty = v.ty) : MapTyped outputs (m.insert v (outputs.elems.idxOf o)) := by
  intro w n hl
  by_cases he : w = v
  · subst he
    rw [AList.lookup_insert] at hl
    cases hl
    exact ⟨o, idxOf_getElem? ho, hty⟩
  · rw [AList.lookup_insert_ne he] at hl
    exact h w n hl

/- Types agree when the incoming values of a PHI have its type. -/
theorem mapInputsOutputs_typed {M : Module} {inputs outputs : ValueSet}
    (hphi : ∀ j t, Value.inst j t ∈ inputs → ∀ phi, M.inst? j = some phi → phi.isPHI = true →
      ∀ o ∈ phi.operands, o.ty = t) :
    MapTyped outputs (mapInputsOutputs M inputs outputs (∅, ∅)).1 := by
  refine foldl_preserves (P := fun maps : IOMaps => MapTyped outputs maps.1) _ ?_ ?_
  · intro o maps ho hmaps
    unfold mapOutput
    split
    · exact hmaps.insert ho rfl
    · exact hmaps
  · refine foldl_preserves (P := fun maps : IOMaps => MapTyped outputs maps.1) _ ?_ ?_
    · intro v maps hv hmaps
      unfold mapInput
      split
      · next j t =>
        split
        · next phi hfind =>
          split
          · next hp =>
            refine foldl_preserves (P := fun maps : IOMaps => MapTyped outputs maps.1) _ ?_ hmaps
            intro incV m hin hm
            unfold mapIncoming
            split
            · next ho => exact hm.insert ho (hphi j t hv phi hfind hp incV hin)
            · exact hm
          · exact hmaps
        · exact hmaps
      · exact hmaps
    · intro v n hl
      cases hl

/- The second loop maps what is an input and an output to itself. -/
theorem mapOutput_lookup (inputs outputs : ValueSet) (os : List Value) (maps : IOMaps) (x : Value) :
    ((os.foldl (mapOutput inputs outputs) maps).2.lookup x =
      if x ∈ os ∧ x ∈ inputs then some x else maps.2.lookup x) ∧
    (os.foldl (mapOutput inputs outputs) maps).1.lookup x =
      if x ∈ os ∧ x ∈ inputs then some (outputs.elems.idxOf x) else maps.1.lookup x := by
  induction os generalizing maps with
  | nil => simp
  | cons o os ih =>
    obtain ⟨h1, h2⟩ := ih (mapOutput inputs outputs maps o)
    rw [List.foldl_cons, h1, h2]
    by_cases hx : x ∈ os ∧ x ∈ inputs
    · have hcons : x ∈ o :: os ∧ x ∈ inputs := ⟨List.mem_cons_of_mem _ hx.1, hx.2⟩
      simp only [if_pos hx, if_pos hcons, and_self]
    · rw [if_neg hx, if_neg hx]
      unfold mapOutput
      by_cases hxo : x = o
      · subst hxo
        by_cases hin : x ∈ inputs
        · have hcons : x ∈ x :: os ∧ x ∈ inputs := ⟨List.mem_cons_self .., hin⟩
          simp only [if_pos hin, if_pos hcons, AList.lookup_insert, and_self]
        · have hcons : ¬(x ∈ x :: os ∧ x ∈ inputs) := fun h => hin h.2
          simp only [if_neg hin, if_neg hcons, and_self]
      · have hcons : ¬(x ∈ o :: os ∧ x ∈ inputs) := by
          rintro ⟨hm, hin⟩
          rcases List.mem_cons.mp hm with he | hm
          · exact hxo he
          · exact hx ⟨hm, hin⟩
        rw [if_neg hcons, if_neg hcons]
        split
        · exact ⟨AList.lookup_insert_ne hxo, AList.lookup_insert_ne hxo⟩
        · exact ⟨rfl, rfl⟩

theorem mapInputsOutputs_self (M : Module) (inputs outputs : ValueSet) {v : Value} (hi : v ∈ inputs)
    (ho : v ∈ outputs) :
    (mapInputsOutputs M inputs outputs (∅, ∅)).2.lookup v = some v := by
  have h := (mapOutput_lookup inputs outputs outputs.elems
    (inputs.elems.foldl (mapInput M outputs) (∅, ∅)) v).1
  rw [if_pos ⟨ho, hi⟩] at h
  exact h

end Maps

section Find
variable (M : Module) (blocks : SetVector BlockId)

theorem globalGeps_mem {gep : Inst} (h : gep ∈ globalGeps M blocks) :
    gep ∈ M.regionInsts blocks.elems ∧ gep.op = .getElementPtr := by
  have hm : gep ∈ (M.regionInsts blocks.elems).filter fun i => i.op = .getElementPtr := by
    rcases List.mem_append.mp h with h | h
    · exact List.mem_of_mem_filter h
    · exact List.mem_of_mem_drop h
  obtain ⟨h1, h2⟩ := List.mem_filter.mp hm
  exact ⟨h1, by simpa using h2⟩

theorem mem_ite_insert {c : Prop} [Decidable c] {s : ValueSet} {p v : Value} :
    v ∈ (if c then s.insert p else s) ↔ v ∈ s ∨ c ∧ v = p := by
  split
  · next hc => simp [hc]
  · next hc => simp [hc]

/- The sets grow by base pointers of GEPs of the region. -/
theorem findGlobal_spec (inputs outputs : ValueSet) {P Q : Value → Prop}
    (hP : ∀ gep ∈ globalGeps M blocks, ∀ p, gepPointer gep = some p → P p ∧ Q p)
    (hi : ∀ v ∈ inputs, P v) (ho : ∀ v ∈ outputs, Q v) :
    (∀ v ∈ (findGlobalInputsOutputs M blocks inputs outputs).1, P v) ∧
      ∀ v ∈ (findGlobalInputsOutputs M blocks inputs outputs).2, Q v := by
  refine foldl_preserves (P := fun st : ValueSet × ValueSet => (∀ v ∈ st.1, P v) ∧ ∀ v ∈ st.2, Q v)
    _ ?_ ⟨hi, ho⟩
  rintro gep ⟨i, o⟩ hgep ⟨hi, ho⟩
  unfold findGlobalStep
  cases hp : gepPointer gep with
  | none => exact ⟨hi, ho⟩
  | some p =>
    obtain ⟨hpP, hpQ⟩ := hP gep hgep p hp
    constructor
    · intro v hv
      rcases mem_ite_insert.mp hv with hv | ⟨-, rfl⟩
      · exact hi v hv
      · exact hpP
    · intro v hv
      rcases mem_ite_insert.mp hv with hv | ⟨-, rfl⟩
      · exact ho v hv
      · exact hpQ

/- The loop only adds. -/
theorem findGlobal_mono (inputs outputs : ValueSet) :
    (∀ v ∈ inputs, v ∈ (findGlobalInputsOutputs M blocks inputs outputs).1) ∧
      ∀ v ∈ outputs, v ∈ (findGlobalInputsOutputs M blocks inputs outputs).2 := by
  refine foldl_preserves (P := fun st : ValueSet × ValueSet => (∀ v ∈ inputs, v ∈ st.1) ∧
    ∀ v ∈ outputs, v ∈ st.2) _ ?_ ⟨fun v hv => hv, fun v hv => hv⟩
  rintro gep ⟨i, o⟩ - ⟨hi, ho⟩
  unfold findGlobalStep
  cases gepPointer gep with
  | none => exact ⟨hi, ho⟩
  | some p =>
    exact ⟨fun v hv => mem_ite_insert.mpr (.inl (hi v hv)),
      fun v hv => mem_ite_insert.mpr (.inl (ho v hv))⟩

end Find

section FindAll
variable {ce : CodeExtractor} {M : Module}

theorem findInputs_mem {v : Value} : v ∈ (findInputsOutputs M ce.blocks ∅ ∅).1 ↔
    ∃ i ∈ M.regionInsts ce.blocks.elems, v ∈ i.operands ∧ definedInCaller M ce.blocks v = true := by
  simp only [findInputsOutputs, SetVector.mem_insertAll, SetVector.notMem_empty, false_or,
    List.mem_flatMap, List.mem_filter]

theorem findOutputs_mem {v : Value} : v ∈ (findInputsOutputs M ce.blocks ∅ ∅).2 ↔
    ∃ i ∈ M.regionInsts ce.blocks.elems, v = i.val ∧ usedOutside M ce.blocks i = true := by
  simp only [findInputsOutputs, SetVector.mem_insertAll, SetVector.notMem_empty, false_or,
    List.mem_map, List.mem_filter]
  constructor
  · rintro ⟨i, ⟨hi, hu⟩, rfl⟩
    exact ⟨i, hi, rfl, hu⟩
  · rintro ⟨i, hi, rfl, hu⟩
    exact ⟨i, ⟨hi, hu⟩, rfl⟩

/- Inputs are operands of the region. -/
theorem findAll_inputs {v : Value} (h : v ∈ (ce.findAll M).inputs) :
    ∃ i ∈ M.regionInsts ce.blocks.elems, v ∈ i.operands := by
  refine (findGlobal_spec M ce.blocks _ _ (P := fun v => ∃ i ∈ M.regionInsts ce.blocks.elems,
    v ∈ i.operands) (Q := fun _ => True) ?_ ?_ fun _ _ => trivial).1 v h
  · intro gep hgep p hp
    exact ⟨⟨gep, (globalGeps_mem M ce.blocks hgep).1, List.mem_of_mem_head? hp⟩, trivial⟩
  · intro v hv
    obtain ⟨i, hi, hvi, -⟩ := findInputs_mem.mp hv
    exact ⟨i, hi, hvi⟩

/- Outputs are instructions of the region or base pointers of its GEPs. -/
theorem findAll_outputs {v : Value} (h : v ∈ (ce.findAll M).outputs) :
    (∃ i ∈ M.regionInsts ce.blocks.elems, v = i.val ∧ usedOutside M ce.blocks i = true) ∨
      ∃ gep ∈ globalGeps M ce.blocks, gepPointer gep = some v := by
  refine (findGlobal_spec M ce.blocks _ _ (P := fun _ => True) (Q := fun v =>
    (∃ i ∈ M.regionInsts ce.blocks.elems, v = i.val ∧ usedOutside M ce.blocks i = true) ∨
      ∃ gep ∈ globalGeps M ce.blocks, gepPointer gep = some v) ?_ (fun _ _ => trivial) ?_).2 v h
  · intro gep hgep p hp
    exact ⟨trivial, .inr ⟨gep, hgep, hp⟩⟩
  · intro v hv
    exact .inl (findOutputs_mem.mp hv)

theorem findAll_maps (ce : CodeExtractor) (M : Module) :
    MapsOf (ce.findAll M).inputs (ce.findAll M).outputs
      ((ce.findAll M).inputToOutputMap, (ce.findAll M).outputToInputMap) :=
  mapInputsOutputs_spec M _ _

/- An input that is an output is its own image. -/
theorem findAll_image {v : Value} (hv : v ∈ (ce.findAll M).inputs)
    (hk : v ∈ (ce.findAll M).outputToInputMap) : IsImage (ce.findAll M).outputToInputMap v := by
  obtain ⟨w, hw⟩ := Option.isSome_iff_exists.mp (AList.lookup_isSome.mpr hk)
  have ho := ((findAll_maps ce M).toInput v w hw).1
  exact ⟨v, mapInputsOutputs_self M _ _ hv ho⟩

theorem region_operands_lt (hM : M.WF) {bs : List BlockId} {i : Inst} (hi : i ∈ M.regionInsts bs) :
    i.id < M.nextId ∧ ∀ j t, Value.inst j t ∈ i.operands → M.nextId > j := by
  obtain ⟨b, hb, hib⟩ := List.mem_flatMap.mp hi
  have him : i ∈ M.insts := List.mem_flatMap.mpr ⟨b, ((mem_region hM.toIds).mp hb).1, hib⟩
  exact ⟨hM.insts_lt i him, hM.operands_lt i him⟩

theorem findAll_inputs_lt (hM : M.WF) {j : InstId} {t : Ty}
    (h : Value.inst j t ∈ (ce.findAll M).inputs) : M.nextId > j := by
  obtain ⟨i, hi, hv⟩ := findAll_inputs h
  exact (region_operands_lt hM hi).2 j t hv

theorem findAll_outputs_lt (hM : M.WF) {j : InstId} {t : Ty}
    (h : Value.inst j t ∈ (ce.findAll M).outputs) : M.nextId > j := by
  rcases findAll_outputs h with ⟨i, hi, he, -⟩ | ⟨gep, hgep, hp⟩
  · have hj : j = i.id := by injection he
    rw [hj]
    exact (region_operands_lt hM hi).1
  · exact (region_operands_lt hM (globalGeps_mem M ce.blocks hgep).1).2 j t (List.mem_of_mem_head? hp)

end FindAll

section Prepare
variable {ce ce' : CodeExtractor} {M : Module}

/- The set the extractor had found, its inputs in order and its stack slots. -/
theorem prepare_spec (h : ce.prepare M = some ce') :
    ∃ ins sa si, ce' = { ce.findAll M with inputs := ins, stackAllocas := sa, stackAllocaInits := si } ∧
      match ce.iterInfo with
      | none => ins = (ce.findAll M).inputs
      | some info => ∃ b, reorderInputs (ce.findAll M).inputs info = some (b, ins) := by
  obtain ⟨c, hc, hs⟩ := Option.bind_eq_some_iff.mp h
  have hslots : ∃ sa si, ce' = { c with stackAllocas := sa, stackAllocaInits := si } := by
    unfold findStackAllocatable at hs
    split at hs
    · cases hs
      exact ⟨_, _, rfl⟩
    · obtain ⟨s, -, hs⟩ := Option.map_eq_some_iff.mp hs
      exact ⟨_, _, hs.symm⟩
  obtain ⟨sa, si, rfl⟩ := hslots
  unfold CodeExtractor.reorder at hc
  split at hc
  · next hinfo =>
    cases hc
    refine ⟨_, sa, si, rfl, ?_⟩
    rw [show ce.iterInfo = none from hinfo]
  · next info hinfo =>
    obtain ⟨⟨b, ins⟩, hr, hc⟩ := Option.map_eq_some_iff.mp hc
    cases hc
    refine ⟨ins, sa, si, rfl, ?_⟩
    rw [show ce.iterInfo = some info from hinfo]
    exact ⟨b, hr⟩

theorem prepare_blocks (h : ce.prepare M = some ce') : ce'.blocks = ce.blocks := by
  obtain ⟨ins, sa, si, rfl, -⟩ := prepare_spec h
  rfl

theorem prepare_outputs (h : ce.prepare M = some ce') : ce'.outputs = (ce.findAll M).outputs := by
  obtain ⟨ins, sa, si, rfl, -⟩ := prepare_spec h
  rfl

theorem prepare_maps (h : ce.prepare M = some ce') :
    ce'.inputToOutputMap = (ce.findAll M).inputToOutputMap ∧ ce'.outputToInputMap = (ce.findAll M).outputToInputMap := by
  obtain ⟨ins, sa, si, rfl, -⟩ := prepare_spec h
  exact ⟨rfl, rfl⟩

/- The region consists of blocks of the module. -/
theorem prepare_exist {bbs : List BlockId} {iterInfo : Option IteratorInfo} {LBA : Option LoopBoundsAnalyzer}
    {DT : Option (BlockId → Bool)} {agg varArgs allocas flatten : Bool}
    (h0 : codeExtractor M bbs iterInfo LBA DT agg varArgs allocas flatten = some ce)
    (hbs : ∀ b ∈ bbs, ∃ x ∈ M.blocks, x.id = b) (hp : ce.prepare M = some ce') :
    ∀ b ∈ ce'.blocks.elems, ∃ x ∈ M.blocks, x.id = b := by
  rw [prepare_blocks hp]
  exact fun b hb => hbs b (codeExtractor_blocks h0 b hb)

theorem reorderInputs_mem {inputs ins : ValueSet} {info : IteratorInfo} {b : Bool}
    (h : reorderInputs inputs info = some (b, ins)) (v : Value) : v ∈ ins ↔ v ∈ inputs := by
  rcases reorderInputs_spec inputs info (b, ins) h with ⟨-, he⟩ | ⟨pre, f, post, he, -, -, hr⟩
  · rw [show ins = inputs from he]
  · dsimp only at hr
    rw [SetVector.mem_def, SetVector.mem_def, he, hr]
    simp only [List.mem_cons, List.mem_append]
    tauto

theorem prepare_inputs_mem (h : ce.prepare M = some ce') (v : Value) :
    v ∈ ce'.inputs ↔ v ∈ (ce.findAll M).inputs := by
  obtain ⟨ins, sa, si, rfl, hins⟩ := prepare_spec h
  cases hinfo : ce.iterInfo with
  | none =>
    rw [hinfo] at hins
    rw [show ins = _ from hins]
  | some info =>
    rw [hinfo] at hins
    obtain ⟨b, hr⟩ := hins
    exact reorderInputs_mem hr v

theorem pushSlot_mem {v w : Value} {init : Option Const} {s : StackSlots} (h : w ∈ (pushSlot v init s).1) :
    w ∈ s.1 ∨ w = v := SetVector.mem_insert.mp h

/- A round adds no slot but that of its input. -/
theorem stackSlot_mem {lba : LoopBoundsAnalyzer} {s s' : StackSlots} {v : Value}
    (h : stackSlot lba s v = some s') : ∀ w ∈ s'.1, w ∈ s.1 ∨ w = v := by
  have hif : ∀ {c : Bool} {f : StackSlots → Option StackSlots} {s₁ s₂ : StackSlots},
      (∀ t t', f t = some t' → ∃ init, t' = pushSlot v init t) → (if c then f s₁ else some s₁) = some s₂ →
      ∀ w ∈ s₂.1, w ∈ s₁.1 ∨ w = v := by
    intro c f s₁ s₂ hf h w hw
    split at h
    · obtain ⟨init, rfl⟩ := hf s₁ s₂ h
      exact pushSlot_mem hw
    · cases h
      exact .inl hw
  obtain ⟨isCondUse, -, h⟩ := Option.bind_eq_some_iff.mp h
  dsimp only at h
  split at h
  · cases h
  · split at h
    · cases h
    · obtain ⟨s₁, h1, h⟩ := Option.bind_eq_some_iff.mp h
      obtain ⟨s₂, h2, h3⟩ := Option.bind_eq_some_iff.mp h
      have k1 := hif (fun t t' ht => by
        obtain ⟨_, -, ht⟩ := Option.bind_eq_some_iff.mp ht
        obtain ⟨_, -, ht⟩ := Option.map_eq_some_iff.mp ht
        exact ⟨none, ht.symm⟩) h1
      have k2 := hif (fun t t' ht => by
        obtain ⟨_, -, ht⟩ := Option.bind_eq_some_iff.mp ht
        obtain ⟨_, -, ht⟩ := Option.bind_eq_some_iff.mp ht
        obtain ⟨initVal, -, ht⟩ := Option.map_eq_some_iff.mp ht
        exact ⟨_, ht.symm⟩) h2
      have k3 := hif (fun t t' ht => by
        obtain ⟨initVal, -, ht⟩ := Option.map_eq_some_iff.mp ht
        exact ⟨_, ht.symm⟩) h3
      intro w hw
      rcases k3 w hw with hw | rfl
      · rcases k2 w hw with hw | rfl
        · exact k1 w hw
        · exact .inr rfl
      · exact .inr rfl

/- Stack slots are made for inputs. -/
theorem prepare_slots (h : ce.prepare M = some ce') (hsa : ce.stackAllocas = ∅) :
    ∀ v ∈ ce'.stackAllocas, v ∈ ce'.inputs := by
  obtain ⟨c, hc, hs⟩ := Option.bind_eq_some_iff.mp h
  have hcsa : c.stackAllocas = ∅ := by
    unfold CodeExtractor.reorder at hc
    split at hc
    · cases hc
      exact hsa
    · obtain ⟨r, -, rfl⟩ := Option.map_eq_some_iff.mp hc
      exact hsa
  unfold findStackAllocatable at hs
  split at hs
  · cases hs
    intro v hv
    rw [hcsa] at hv
    exact absurd hv (SetVector.notMem_empty v)
  · obtain ⟨s, hrun, rfl⟩ := Option.map_eq_some_iff.mp hs
    refine foldlM_preserves (P := fun s : StackSlots => ∀ v ∈ s.1, v ∈ c.inputs) _ ?_ ?_ hrun
    · intro v s s' hv hs hstep w hw
      rcases stackSlot_mem hstep w hw with hw | rfl
      · exact hs w hw
      · exact hv
    · intro v hv
      dsimp only at hv
      rw [hcsa] at hv
      exact absurd hv (SetVector.notMem_empty v)

/- Every operand of the region needs no input, is one, or is computed in the region. -/
theorem prepare_found (h : ce.prepare M = some ce') {i : Inst} (hi : i ∈ M.regionInsts ce.blocks.elems)
    {v : Value} (hv : v ∈ i.operands) :
    v.isModuleLevel = true ∨ v ∈ ce'.inputs ∨ definedInRegion M ce.blocks v = true := by
  have hin : definedInCaller M ce.blocks v = true → v ∈ ce'.inputs := fun hd =>
    (prepare_inputs_mem h v).mpr ((findGlobal_mono M ce.blocks _ _).1 v (findInputs_mem.mpr ⟨i, hi, hv, hd⟩))
  cases v with
  | inst j t =>
    by_cases hd : M.definedIn ce.blocks.elems j = true
    · exact .inr (.inr hd)
    · refine .inr (.inl (hin ?_))
      rw [Bool.not_eq_true] at hd
      simp only [definedInCaller, hd, Bool.not_false]
  | arg f k t => exact .inr (.inl (hin rfl))
  | _ => exact .inl rfl

end Prepare

end Atrox
