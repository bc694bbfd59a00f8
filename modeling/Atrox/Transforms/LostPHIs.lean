import Atrox.Transforms.SelfContained
import Atrox.Transforms.SeveredUses

/-!
# PHIs that severing takes out of the region

`prepare` finds the inputs before the header is severed. The new function is self-contained
when what is left of the region needs none of the PHIs that stayed in the old header, and what
the exit stores is computed in the region.
-/

namespace Atrox
open IR Lib

section Property

/- The index of the output an input is mapped to, once entries of severed PHIs are gone. -/
def severedIndex (M : Module) (ce : CodeExtractor) (hb : Block) (v : Value) : Nat :=
  if v ∈ (renamedPHIs M ce.blocks hb).map Inst.val then 0 else (ce.inputToOutputMap.lookup v).getD 0

/- A PHI left behind is an input, or nothing that is cloned uses it. -/
def PHIUncloned (M : Module) (ce : CodeExtractor) (hb : Block) (pn : Inst) : Prop :=
  pn.val ∈ ce.inputs ∨ renamedPHIs M ce.blocks hb = [] ∧
    ∀ i ∈ M.regionInsts ce.blocks.elems, i ∉ hb.phis → i.op ≠ .ret → isIgnoredIntrinsic i = false →
      pn.val ∉ cloneOperands M ce i

/- No input is written back from the value. -/
def NotWrittenBack (M : Module) (ce : CodeExtractor) (hb : Block) (o : Value) : Prop :=
  ∀ v ∈ ce.inputs, ce.isBidirectional v = true → ce.outputs.elems[severedIndex M ce hb v]? = some o →
    o.ty.isPointerTy = true

/- Nothing that is cloned needs a PHI that severing leaves behind. -/
def LostPHIsUnused (M : Module) (ce : CodeExtractor) : Prop :=
  ∀ header hb, ce.blocks.elems.head? = some header → M.block? header = some hb →
    ∀ pn ∈ lostPHIs M ce.blocks hb, PHIUncloned M ce hb pn ∧ NotWrittenBack M ce hb pn.val

/- What is written back is computed in the region, or belongs to no function. -/
def OutputsCloned (M : Module) (ce : CodeExtractor) : Prop :=
  ∀ header hb, ce.blocks.elems.head? = some header → M.block? header = some hb →
    ∀ v ∈ ce.inputs, ce.isBidirectional v = true → ∀ o, ce.outputs.elems[severedIndex M ce hb v]? = some o →
      o.ty.isPointerTy = false → o.isModuleLevel = true ∨ definedInRegion M ce.blocks o = true

end Property

section Facts

/- What is known of a prepared region and of its severed form. -/
structure SeveredFacts (M N : Module) (ce ce' : CodeExtractor) (header' : BlockId) (hb : Block)
    (ρ : Value → Value) : Prop where
  wf : M.WF
  uses : ValidUses M
  severing : Severing M N ((M.regionInsts ce.blocks.elems).filter fun i => i.op ≠ .ret) ce'.blocks.elems
    header' (lostPHIs M ce.blocks hb) ((renamedPHIs M ce.blocks hb).map Inst.id) ρ
  same : renamedPHIs M ce.blocks hb = [] → SameInsts M N
  header : hb ∈ M.blocks ∧ hb.id ∈ ce.blocks.elems
  found : ∀ i ∈ M.regionInsts ce.blocks.elems, ∀ v ∈ i.operands, Available M ce v
  scalar : ∀ o ∈ ce.outputs, o.below M.nextId ∧ (definedInRegion M ce.blocks o = true →
    ∃ i ∈ M.regionInsts ce.blocks.elems, i.op ≠ .ret ∧ o = i.val)
  below : ∀ v ∈ ce.inputs, v.below M.nextId
  inputs : ce'.inputs = ce.inputs
  outputs : ce'.outputs = ce.outputs
  toFlatten : ce'.toFlatten = ce.toFlatten
  accesses : ∀ a ∈ ce.toFlatten, M.nextId > a
  bidirectional : ∀ v ∈ ce.inputs, ce'.isBidirectional v = ce.isBidirectional v
  index : ∀ v ∈ ce.inputs, (ce'.inputToOutputMap.lookup v).getD 0 = severedIndex M ce hb v

theorem lostPHIs_sub {M : Module} {blocks : SetVector BlockId} {hb : Block} :
    ∀ pn ∈ lostPHIs M blocks hb, pn ∈ hb.phis := by
  unfold lostPHIs
  intro pn hpn
  split at hpn
  · exact hpn
  · cases hpn

/- Once a PHI is left behind, all of the header are. -/
theorem lostPHIs_eq {M : Module} {blocks : SetVector BlockId} {hb : Block} {pn : Inst}
    (h : pn ∈ lostPHIs M blocks hb) : lostPHIs M blocks hb = hb.phis := by
  unfold lostPHIs at h ⊢
  split
  · rfl
  · next hno =>
    rw [if_neg hno] at h
    cases h

theorem renamedPHIs_cases (M : Module) (blocks : SetVector BlockId) (hb : Block) :
    renamedPHIs M blocks hb = [] ∨ renamedPHIs M blocks hb = lostPHIs M blocks hb := by
  unfold renamedPHIs lostPHIs
  cases severs M blocks hb with
  | none => exact .inl rfl
  | some n =>
    simp only [Option.getD_some, Option.isSome_some, if_true]
    split
    · exact .inl rfl
    · exact .inr rfl

variable {M N : Module} {ce ce' : CodeExtractor} {header' : BlockId} {hb : Block} {ρ : Value → Value}

theorem SeveredFacts.lost_mem (h : SeveredFacts M N ce ce' header' hb ρ) {pn : Inst}
    (hpn : pn ∈ lostPHIs M ce.blocks hb) : pn ∈ M.regionInsts ce.blocks.elems ∧ pn.op = .phi := by
  have hm := lostPHIs_sub pn hpn
  refine ⟨(regionInsts_mem h.wf.toIds).mpr ⟨hb, h.header.1, h.header.2, List.takeWhile_subset _ hm⟩, ?_⟩
  have hphi := List.all_eq_true.mp List.all_takeWhile pn hm
  exact of_decide_eq_true hphi

theorem SeveredFacts.insts (h : SeveredFacts M N ce ce' header' hb ρ) {i : Inst}
    (hi : i ∈ M.regionInsts ce.blocks.elems) : i ∈ M.insts := regionInsts_sub h.wf.toIds hi

/- PHIs left behind are gone from the region. -/
theorem SeveredFacts.gone (h : SeveredFacts M N ce ce' header' hb ρ) {pn : Inst}
    (hpn : pn ∈ lostPHIs M ce.blocks hb) : definedInRegion N ce'.blocks pn.val = false := by
  rw [Bool.eq_false_iff]
  intro hd
  obtain ⟨u, hu, hid⟩ := (definedIn_iff h.severing.wf.toIds).mp hd
  have hpm := h.insts (h.lost_mem hpn).1
  have hlt := h.wf.insts_lt pn hpm
  cases h.severing.origin u hu with
  | kept i hi hno hui _ =>
    have hii : i.id = pn.id := (id_of_head hui).symm.trans hid
    have him := h.insts (List.mem_of_mem_filter hi)
    exact hno (inst_unique h.wf.toIds him hpm hii ▸ hpn)
  | phi _ _ hge => omega
  | branch hge => omega

/- Other instructions of the region are still there. -/
theorem SeveredFacts.stays (h : SeveredFacts M N ce ce' header' hb ρ) {i : Inst}
    (hi : i ∈ M.regionInsts ce.blocks.elems) (hop : i.op ≠ .ret) (hno : i ∉ lostPHIs M ce.blocks hb) :
    definedInRegion N ce'.blocks i.val = true := by
  obtain ⟨u, hu, hui, -⟩ := h.severing.kept i (List.mem_filter.mpr ⟨hi, decide_eq_true hop⟩) hno
  exact (definedIn_iff h.severing.wf.toIds).mpr ⟨u, hu, id_of_head hui⟩

/- A value is renamed to an instruction of the new header, or stays. -/
theorem SeveredFacts.rename (h : SeveredFacts M N ce ce' header' hb ρ) (v : Value) :
    (∃ u ∈ N.regionInsts ce'.blocks.elems, ρ v = u.val) ∨
      ρ v = v ∧ ∀ pn ∈ renamedPHIs M ce.blocks hb, v ≠ pn.val := by
  have hsub : ∀ pn ∈ renamedPHIs M ce.blocks hb, pn ∈ lostPHIs M ce.blocks hb := by
    intro pn hpn
    rcases renamedPHIs_cases M ce.blocks hb with he | he
    · rw [he] at hpn
      cases hpn
    · exact he ▸ hpn
  by_cases hv : ∃ pn ∈ renamedPHIs M ce.blocks hb, v = pn.val
  · obtain ⟨pn, hpn, rfl⟩ := hv
    obtain ⟨u, hu, -, hρ, -⟩ := h.severing.fresh pn (hsub pn hpn) (List.mem_map_of_mem hpn)
    exact .inl ⟨u, hu, hρ⟩
  · refine .inr ⟨h.severing.fixed v fun pn hpn hd he => hv ?_, fun pn hpn he => hv ⟨pn, hpn, he⟩⟩
    obtain ⟨pn', hpn', hid⟩ := List.mem_map.mp hd
    have heq := inst_unique h.wf.toIds (h.insts (h.lost_mem (hsub pn' hpn')).1) (h.insts (h.lost_mem hpn).1) hid
    exact ⟨pn', hpn', heq ▸ he⟩

/- An operand that was available still is, unless it is a PHI left behind. -/
theorem SeveredFacts.available (h : SeveredFacts M N ce ce' header' hb ρ) {i : Inst}
    (hi : i ∈ M.regionInsts ce.blocks.elems) {v : Value} (hv : v ∈ i.operands) :
    Available N ce' (ρ v) ∨ ∃ pn ∈ lostPHIs M ce.blocks hb, v = pn.val ∧ ρ v = v ∧
      renamedPHIs M ce.blocks hb = [] := by
  rcases h.rename v with ⟨u, hu, hρ⟩ | ⟨hρ, hnot⟩
  · rw [hρ]
    exact .inl (.inr (.inr ((definedIn_iff h.severing.wf.toIds).mpr ⟨u, hu, rfl⟩)))
  · rw [hρ]
    rcases h.found i hi v hv with hm | hin | hd
    · exact .inl (.inl hm)
    · exact .inl (.inr (.inl (h.inputs ▸ hin)))
    · cases v with
      | inst j t =>
        obtain ⟨x, hx, rfl⟩ := (definedIn_iff h.wf.toIds).mp hd
        obtain ⟨hty, hop⟩ := h.uses.of_inst (h.insts hi) (h.insts hx) hv
        have hval : Value.inst x.id t = x.val := by rw [Inst.val, hty]
        rw [hval]
        by_cases hlost : x ∈ lostPHIs M ce.blocks hb
        · refine .inr ⟨x, hlost, rfl, rfl, ?_⟩
          rcases renamedPHIs_cases M ce.blocks hb with he | he
          · exact he
          · exact absurd hval (hnot x (he ▸ hlost))
        · exact .inl (.inr (.inr (h.stays hx hop hlost)))
      | _ => cases hd

theorem cloneOperands_phi {M : Module} {ce : CodeExtractor} {i : Inst} (h : i.op = .phi) :
    cloneOperands M ce i = i.operands := by
  have hno : flattens M ce.toFlatten i = false := by
    rw [Bool.eq_false_iff]
    intro hf
    obtain ⟨-, hany⟩ := Bool.and_eq_true_iff.mp hf
    obtain ⟨a, -, ha⟩ := List.any_eq_true.mp hany
    have hop := (accessGEP_some (of_decide_eq_true ha)).2
    rw [h] at hop
    cases hop
  rw [cloneOperands, hno]
  rfl

/- Without new PHIs a clone keeps the same operands. -/
theorem SeveredFacts.cloneOperands (h : SeveredFacts M N ce ce' header' hb ρ)
    (hnil : renamedPHIs M ce.blocks hb = []) {u i : Inst} (hu : u ∈ N.insts) (hi : i ∈ M.insts)
    (hhead : u.head = i.head) : cloneOperands N ce' u = Atrox.cloneOperands M ce i := by
  have hs := h.same hnil
  have hui : u.core = i.core := by
    have hid : u.id = i.id := id_of_head hhead
    rcases hs.back u hu with ⟨j, hj, huj⟩ | hge
    · rw [huj, inst_unique h.wf.toIds hj hi ((id_of_core huj).symm.trans hid)]
    · have := h.wf.insts_lt i hi
      omega
  have hops := operands_of_core hui
  unfold Atrox.cloneOperands
  rw [h.toFlatten, hs.flattens h.wf h.severing.wf.toIds h.accesses hu hi hui]
  simp only [flatOperands, hops]

/- Operands defined in the severed region are its instructions. -/
theorem SeveredFacts.typed (h : SeveredFacts M N ce ce' header' hb ρ) {u : Inst}
    (hu : u ∈ N.regionInsts ce'.blocks.elems) {v : Value} (hv : v ∈ u.operands)
    (hd : definedInRegion N ce'.blocks v = true) : ∃ x ∈ N.regionInsts ce'.blocks.elems, v = x.val := by
  -- an old value that is defined in the region
  have hold : ∀ i ∈ M.insts, ∀ w ∈ i.operands, w = v → ∃ x ∈ N.regionInsts ce'.blocks.elems, v = x.val := by
    rintro i hi w hw rfl
    cases w with
    | inst j t =>
      obtain ⟨x, hx, rfl⟩ := (definedIn_iff h.severing.wf.toIds).mp hd
      refine ⟨x, hx, ?_⟩
      rcases h.severing.kin x (regionInsts_sub h.severing.wf.toIds hx) with ⟨z, hz, hzx⟩ | ⟨hge, -⟩
      · have hty := (h.uses.of_inst hi hz ((id_of_head hzx).symm ▸ hw)).1
        rw [Inst.val, ← ty_of_head hzx, hty]
      · have := h.wf.operands_lt i hi x.id t hw
        omega
    | _ => cases hd
  have hren : ∀ i ∈ M.insts, ∀ w ∈ i.operands, v = ρ w → ∃ x ∈ N.regionInsts ce'.blocks.elems, v = x.val := by
    intro i hi w hw hvw
    rcases h.rename w with ⟨x, hx, hρ⟩ | ⟨hρ, -⟩
    · exact ⟨x, hx, hvw.trans hρ⟩
    · exact hold i hi w hw (hρ.symm.trans hvw.symm)
  cases h.severing.origin u hu with
  | kept i hi _ _ hops =>
    rw [hops] at hv
    obtain ⟨w, hw, hwv⟩ := List.mem_map.mp hv
    exact hren i (h.insts (List.mem_of_mem_filter hi)) w hw hwv.symm
  | phi pn hpn _ _ _ huse =>
    rcases huse v hv with rfl | ⟨w, hw, hvw⟩
    · rw [h.gone hpn] at hd
      cases hd
    · exact hren pn (h.insts (h.lost_mem hpn).1) w hw hvw
  | branch _ _ hnil =>
    rw [hnil] at hv
    cases hv

theorem SeveredFacts.writtenBack (h : SeveredFacts M N ce ce' header' hb ρ) (o : Value) :
    WrittenBack ce' o ↔ ¬NotWrittenBack M ce hb o := by
  simp only [WrittenBack, NotWrittenBack, h.inputs, h.outputs, not_forall, Bool.not_eq_true]
  constructor
  · rintro ⟨hty, v, hv, hvb, hidx⟩
    rw [h.index v hv] at hidx
    exact ⟨v, hv, (h.bidirectional v hv).symm.trans hvb, hidx, hty⟩
  · rintro ⟨v, hv, hvb, hidx, hty⟩
    refine ⟨hty, v, hv, (h.bidirectional v hv).trans hvb, ?_⟩
    rw [h.index v hv]
    exact hidx

/- Old values that the severed region defines were defined in the region. -/
theorem SeveredFacts.old_defined (h : SeveredFacts M N ce ce' header' hb ρ) {v : Value} (hv : v.below M.nextId)
    (hd : definedInRegion N ce'.blocks v = true) : definedInRegion M ce.blocks v = true := by
  cases v with
  | inst j t =>
    obtain ⟨u, hu, rfl⟩ := (definedIn_iff h.severing.wf.toIds).mp hd
    have hlt : M.nextId > u.id := hv
    cases h.severing.origin u hu with
    | kept i hi _ hui _ => exact (definedIn_iff h.wf.toIds).mpr ⟨i, List.mem_of_mem_filter hi, (id_of_head hui).symm⟩
    | phi _ _ hge => omega
    | branch hge => omega
  | _ => cases hd

/- The instruction an output is computed by, in the severed region. -/
theorem SeveredFacts.output_typed (h : SeveredFacts M N ce ce' header' hb ρ) {o : Value} (ho : o ∈ ce.outputs)
    (hd : definedInRegion N ce'.blocks o = true) : ∃ x ∈ N.regionInsts ce'.blocks.elems, o = x.val := by
  obtain ⟨hbelow, hscalar⟩ := h.scalar o ho
  obtain ⟨i, hi, -, rfl⟩ := hscalar (h.old_defined hbelow hd)
  obtain ⟨u, hu, hid⟩ := (definedIn_iff h.severing.wf.toIds).mp hd
  have hlt := h.wf.insts_lt i (h.insts hi)
  refine ⟨u, hu, ?_⟩
  cases h.severing.origin u hu with
  | kept j hj _ huj _ =>
    have hji : j.id = i.id := (id_of_head huj).symm.trans hid
    obtain rfl := inst_unique h.wf.toIds (h.insts (List.mem_of_mem_filter hj)) (h.insts hi) hji
    rw [Inst.val, Inst.val, hid, ty_of_head huj]
  | phi _ _ hge => omega
  | branch hge => omega

/- A PHI left behind is available only as an input. -/
theorem SeveredFacts.input_of_available (h : SeveredFacts M N ce ce' header' hb ρ) {pn : Inst}
    (hpn : pn ∈ lostPHIs M ce.blocks hb) (hav : Available N ce' pn.val) : pn.val ∈ ce.inputs := by
  rcases hav with hm | hin | hd
  · cases hm
  · exact h.inputs ▸ hin
  · rw [h.gone hpn] at hd
    cases hd

theorem SeveredFacts.uncloned_of_available (h : SeveredFacts M N ce ce' header' hb ρ) (hall : AllAvailable N ce')
    {pn : Inst} (hpn : pn ∈ lostPHIs M ce.blocks hb) : PHIUncloned M ce hb pn := by
  rcases renamedPHIs_cases M ce.blocks hb with hnil | he
  · by_cases hin : pn.val ∈ ce.inputs
    · exact .inl hin
    · refine .inr ⟨hnil, fun i hi hno hop hig huse => hin ?_⟩
      have hno' : i ∉ lostPHIs M ce.blocks hb := fun hm => hno (lostPHIs_sub i hm)
      obtain ⟨u, hu, hui, -⟩ := h.severing.kept i (List.mem_filter.mpr ⟨hi, decide_eq_true hop⟩) hno'
      have hops := h.cloneOperands hnil (regionInsts_sub h.severing.wf.toIds hu) (h.insts hi) hui
      refine h.input_of_available hpn (hall.operands u hu ?_ pn.val (hops ▸ huse))
      rw [isIgnoredIntrinsic, op_of_head hui]
      exact hig
  · obtain ⟨u, hu, -, -, hop, huse⟩ := h.severing.fresh pn hpn (he ▸ List.mem_map_of_mem hpn)
    refine .inl (h.input_of_available hpn (hall.operands u hu ?_ pn.val ?_))
    · rw [isIgnoredIntrinsic, hop]
      rfl
    · rw [cloneOperands_phi hop]
      exact huse

/- A PHI of the new header stands for one that was renamed. -/
theorem SeveredFacts.renamed_ne_nil (h : SeveredFacts M N ce ce' header' hb ρ) {pn u : Inst}
    (hpn : pn ∈ lostPHIs M ce.blocks hb) (hge : M.nextId ≤ u.id) (hρ : ρ pn.val = u.val) :
    renamedPHIs M ce.blocks hb ≠ [] := by
  intro hnil
  have hfix : ρ pn.val = pn.val := h.severing.fixed pn.val fun pn' hpn' hd => by
    rw [hnil] at hd
    cases hd
  rw [hfix] at hρ
  have hid : pn.id = u.id := by injection hρ
  have := h.wf.insts_lt pn (h.insts (h.lost_mem hpn).1)
  omega

theorem SeveredFacts.operand_available (h : SeveredFacts M N ce ce' header' hb ρ)
    (hall : ∀ pn ∈ lostPHIs M ce.blocks hb, PHIUncloned M ce hb pn) {u : Inst}
    (hu : u ∈ N.regionInsts ce'.blocks.elems) (hig : isIgnoredIntrinsic u = false) {v : Value}
    (hv : v ∈ Atrox.cloneOperands N ce' u) : Available N ce' v := by
  have huv := cloneOperands_sub hv
  cases h.severing.origin u hu with
  | kept i hi hno hui hops =>
    obtain ⟨hi, hop⟩ := List.mem_filter.mp hi
    rw [hops] at huv
    obtain ⟨w, hw, rfl⟩ := List.mem_map.mp huv
    rcases h.available hi hw with hav | ⟨pn, hpn, rfl, hρ, hnil⟩
    · exact hav
    · rw [hρ] at hv ⊢
      rcases hall pn hpn with hin | ⟨-, hun⟩
      · exact .inr (.inl (h.inputs ▸ hin))
      · have hcl := h.cloneOperands hnil (regionInsts_sub h.severing.wf.toIds hu) (h.insts hi) hui
        rw [hcl] at hv
        refine absurd hv (hun i hi (lostPHIs_eq hpn ▸ hno) (of_decide_eq_true hop) ?_)
        rw [isIgnoredIntrinsic, ← op_of_head hui]
        exact hig
  | phi pn hpn hge _ hρ huse =>
    -- there are new PHIs, so the ones left behind are inputs
    have hren := h.renamed_ne_nil hpn hge hρ
    rcases huse v huv with rfl | ⟨w, hw, rfl⟩
    · rcases hall pn hpn with hin | ⟨hnil, -⟩
      · exact .inr (.inl (h.inputs ▸ hin))
      · exact absurd hnil hren
    · rcases h.available (h.lost_mem hpn).1 hw with hav | ⟨-, -, -, -, hnil⟩
      · exact hav
      · exact absurd hnil hren
  | branch _ _ hnil =>
    rw [hnil] at huv
    cases huv

/- What the severed region needs, in terms of the region as it was. -/
theorem SeveredFacts.allAvailable_iff (h : SeveredFacts M N ce ce' header' hb ρ) : AllAvailable N ce' ↔
    (∀ pn ∈ lostPHIs M ce.blocks hb, PHIUncloned M ce hb pn ∧ NotWrittenBack M ce hb pn.val) ∧
      ∀ v ∈ ce.inputs, ce.isBidirectional v = true → ∀ o, ce.outputs.elems[severedIndex M ce hb v]? = some o →
        o.ty.isPointerTy = false → o.isModuleLevel = true ∨ definedInRegion M ce.blocks o = true := by
  constructor
  · intro hall
    constructor
    · intro pn hpn
      refine ⟨h.uncloned_of_available hall hpn, ?_⟩
      by_contra hno
      rcases hall.outputs pn.val ((h.writtenBack pn.val).mpr hno) with hm | hd
      · cases hm
      · rw [h.gone hpn] at hd
        cases hd
    · intro v hv hvb o hidx hty
      have hwritten : WrittenBack ce' o := (h.writtenBack o).mpr fun hno => by
        rw [hno v hv hvb hidx] at hty
        cases hty
      rcases hall.outputs o hwritten with hm | hd
      · exact .inl hm
      · exact .inr (h.old_defined (h.scalar o (List.mem_of_getElem? hidx)).1 hd)
  · rintro ⟨hlost, hout⟩
    refine ⟨fun u hu hig v hv => h.operand_available (fun pn hpn => (hlost pn hpn).1) hu hig hv, fun o ho => ?_⟩
    obtain ⟨hty, v, hv, hvb, hidx⟩ := id ho
    rw [h.inputs] at hv
    rw [h.outputs, h.index v hv] at hidx
    rw [h.bidirectional v hv] at hvb
    rcases hout v hv hvb o hidx hty with hm | hd
    · exact .inl hm
    · obtain ⟨i, hi, hop, rfl⟩ := (h.scalar o (List.mem_of_getElem? hidx)).2 hd
      refine .inr (h.stays hi hop fun hmem => ?_)
      exact (h.writtenBack i.val).mp ho (hlost i hmem).2

end Facts

section Extracted
variable {ce₀ ce ce' : CodeExtractor} {M : Module}

/- Without new PHIs severing only splits. -/
theorem severSplitPHINodes_sameInsts {M' : Module} {header header' : BlockId} (hM : M.WF)
    (h : severSplitPHINodes ce M header = some (ce', M', header')) {hb : Block}
    (hfind : M.block? header = some hb) (hnil : renamedPHIs M ce.blocks hb = []) : SameInsts M M' := by
  obtain ⟨hb', hfind', ⟨-, -, rfl, -⟩ | ⟨n, first, hsev, -, -, hrun⟩⟩ := severSplitPHINodes_inv h
  · exact .refl M'
  · obtain rfl := Option.some.inj (hfind.symm.trans hfind')
    obtain ⟨hbm, rfl⟩ := block?_some hfind
    rcases hrun with ⟨-, -, rfl⟩ | ⟨hn, -⟩
    · exact splitBlock_sameInsts hM.toIds hbm first.id
    · -- a predecessor in the region is counted at a PHI
      rw [renamedPHIs, hsev, Option.getD_some, if_neg hn] at hnil
      unfold severs at hsev
      split at hsev
      · exact absurd (Option.some.inj hsev).symm hn
      · rw [hnil] at hsev
        cases hsev

/- An output is an old value; one the region defines is an instruction that something uses. -/
theorem prepare_scalar (hM : M.WF) (hu : ValidUses M) (hp : ce₀.prepare M = some ce) {o : Value}
    (ho : o ∈ ce.outputs) : o.below M.nextId ∧ (definedInRegion M ce₀.blocks o = true →
      ∃ i ∈ M.regionInsts ce₀.blocks.elems, i.op ≠ .ret ∧ o = i.val) := by
  have hout : o ∈ (ce₀.findAll M).outputs := prepare_outputs hp ▸ ho
  rcases findAll_outputs hout with ⟨i, hi, rfl, huse⟩ | ⟨gep, hgm, hpt⟩
  · refine ⟨hM.insts_lt i (regionInsts_sub hM.toIds hi), fun _ => ⟨i, hi, ?_, rfl⟩⟩
    obtain ⟨user, hmem, -⟩ := List.any_eq_true.mp huse
    obtain ⟨hum, hv⟩ := List.mem_filter.mp hmem
    have hvm : i.val ∈ user.operands := of_decide_eq_true hv
    exact (hu.of_inst hum (regionInsts_sub hM.toIds hi) hvm).2
  · have hgep := regionInsts_sub hM.toIds (globalGeps_mem M ce₀.blocks hgm).1
    have hom : o ∈ gep.operands := List.mem_of_mem_head? hpt
    refine ⟨hM.operands_below gep hgep o hom, fun hd => ?_⟩
    cases o with
    | inst j t =>
      obtain ⟨i, hi, rfl⟩ := (definedIn_iff hM.toIds).mp hd
      obtain ⟨hty, hop⟩ := hu.of_inst hgep (regionInsts_sub hM.toIds hi) hom
      exact ⟨i, hi, hop, by rw [Inst.val, hty]⟩
    | _ => cases hd

theorem codeExtractor_slots {bbs : List BlockId} {iterInfo : Option IteratorInfo}
    {LBA : Option LoopBoundsAnalyzer} {DT : Option (BlockId → Bool)} {agg varArgs allocas flatten : Bool}
    (h : codeExtractor M bbs iterInfo LBA DT agg varArgs allocas flatten = some ce) :
    ce.stackAllocas = ∅ := by
  obtain ⟨blocks, -, rfl⟩ := Option.map_eq_some_iff.mp h
  rfl

variable {acc : Option (List InstId)}

theorem Extraction.facts (x : Extraction { ce with accesses := acc } M ce') (hM : M.WF) (hv : Verified M)
    (hu : ValidUses M) (hp : ce₀.prepare M = some ce)
    (hpad : HeaderNoPad M x.header) (hacc : ∀ a ∈ acc.getD [], ∃ i ∈ M.insts, i.id = a)
    (hentry : SingleEntry M ce.blocks x.header) : ∃ hb ρ, M.block? x.header = some hb ∧
      SeveredFacts M (splitReturnBlocks ce'.blocks x.severed) { ce with accesses := acc } ce' x.header' hb ρ := by
  have hin : x.header ∈ ce.blocks := List.mem_of_mem_head? x.header_head
  have hblocks := prepare_blocks hp
  obtain ⟨hb, ρ, hfind, hsev⟩ := severSplitPHINodes_severed hM hv hu (by exact hin) hpad (by exact hentry)
    x.severed_eq
  obtain ⟨hbm, hid⟩ := block?_some hfind
  have hphi : ∀ pn ∈ lostPHIs M ce.blocks hb, pn.op ≠ .ret := by
    intro pn hpn hop
    have h := List.all_eq_true.mp List.all_takeWhile pn (lostPHIs_sub pn hpn)
    rw [Inst.isPHI, hop] at h
    cases h
  have hbelow : ∀ v ∈ ce.inputs, v.below M.nextId := by
    intro v hvin
    obtain ⟨i, hi, hvi⟩ := findAll_inputs ((prepare_inputs_mem hp v).mp hvin)
    exact hM.operands_below i (regionInsts_sub hM.toIds hi) v hvi
  have hflat : ce'.toFlatten = CodeExtractor.toFlatten { ce with accesses := acc } := by
    unfold CodeExtractor.toFlatten
    rw [x.from_.sets.accesses, x.from_.sets.flattenArrayAccesses]
  have hbid := severed_isBidirectional hM hp x.severed_eq
  refine ⟨hb, ρ, hfind, {
    wf := hM
    uses := hu
    severing := hsev.severing.splitReturns hphi x.from_.blocks
    same := fun hnil => (severSplitPHINodes_sameInsts hM x.severed_eq hfind hnil).trans
      (splitReturnBlocks_sameInsts x.from_.wf ce'.blocks)
    header := ⟨hbm, hid ▸ hin⟩
    found := fun i hi v hvi => ?_
    scalar := fun o ho => ?_
    below := hbelow
    inputs := x.from_.sets.inputs
    outputs := x.from_.sets.outputs
    toFlatten := hflat
    accesses := fun a ha => ?_
    bidirectional := hbid
    index := fun v hvin => ?_ }⟩
  · have hi' : i ∈ M.regionInsts ce₀.blocks.elems := hblocks ▸ hi
    have hfound := prepare_found hp hi' hvi
    rw [← hblocks] at hfound
    exact hfound
  · have hs := prepare_scalar hM hu hp ho
    rw [← hblocks] at hs
    exact hs
  · exact flattenedAccesses_lt hM (Nat.le_refl _) hacc a ha
  · rw [hsev.lookup v (hbelow v hvin), severedIndex]
    split <;> rfl

/- The region is ready to be cloned once its header is severed. -/
theorem SeveredFacts.ready {N : Module} {header' : BlockId} {hb : Block} {ρ : Value → Value}
    (h : SeveredFacts M N ce ce' header' hb ρ) (hslots : ∀ v ∈ ce'.stackAllocas, v ∈ ce'.inputs) :
    CloneReady N ce' header' where
  inputs := fun v hv => (h.below v (h.inputs ▸ hv)).mono h.severing.le
  slots := hslots
  accesses := fun a ha => Nat.lt_of_lt_of_le (h.accesses a (h.toFlatten ▸ ha)) h.severing.le
  typed := fun u hu v hv _ hd => h.typed hu hv hd
  incoming := by
    intro b hb' hne i hi hphi p hp
    obtain ⟨hbm, hbs⟩ := (mem_region h.severing.wf.toIds).mp hb'
    exact h.severing.incoming b hbm hbs hne i hi hphi p hp
  phisFirst := fun b hb' => h.severing.phisFirst b ((mem_region h.severing.wf.toIds).mp hb').1
  scalar := fun o ho _ =>
    have hout := h.outputs ▸ ho
    ⟨(h.scalar o hout).1.mono h.severing.le, h.output_typed hout⟩

/- The new function is self-contained exactly when nothing it clones needs a PHI that severing has
left behind, and the values it writes back are its own. -/
theorem newFunction_selfContained_iff {M' : Module} {f : FuncId} {bbs : List BlockId}
    {iterInfo : Option IteratorInfo} {LBA : Option LoopBoundsAnalyzer} {DT : Option (BlockId → Bool)}
    {agg varArgs allocas flatten : Bool} (hM : M.WF) (hv : Verified M) (hu : ValidUses M)
    (h0 : codeExtractor M bbs iterInfo LBA DT agg varArgs allocas flatten = some ce₀)
    (hbs : ∀ b ∈ bbs, ∃ x ∈ M.blocks, x.id = b) (hp : ce₀.prepare M = some ce)
    (hacc : ∀ a ∈ acc.getD [], ∃ i ∈ M.insts, i.id = a)
    (hentry : ∀ header, ce.blocks.elems.head? = some header → SingleEntry M ce.blocks header)
    (h : cloneCodeRegion { ce with accesses := acc } M = some (ce', M', some f)) :
    ∃ F, M'.funcs.find? (fun g => g.id = f) = some F ∧
      (SelfContained F ↔
        LostPHIsUnused M { ce with accesses := acc } ∧ OutputsCloned M { ce with accesses := acc }) := by
  have hexist := prepare_exist h0 hbs hp
  obtain ⟨x, rfl, rfl⟩ := cloneCodeRegion_extraction hM (by exact hexist) h
  refine ⟨x.cloned.newFunction, x.find_function, ?_⟩
  have hpad : HeaderNoPad M x.header := codeExtractor_noPad h0 (prepare_blocks hp ▸ x.header_head)
  obtain ⟨hb, ρ, hfind, hfacts⟩ := x.facts hM hv hu hp hpad hacc (hentry x.header x.header_head)
  have hslots := prepare_slots hp (codeExtractor_slots h0)
  have hready := hfacts.ready (by
    rw [x.from_.sets.stackAllocas, x.from_.sets.inputs]
    exact hslots)
  rw [x.cloned.selfContained_iff hready x.erased, hfacts.allAvailable_iff]
  constructor
  · rintro ⟨hlost, hout⟩
    constructor
    · intro header hb' hhead hfind'
      obtain rfl := Option.some.inj (hhead.symm.trans x.header_head)
      obtain rfl := Option.some.inj (hfind'.symm.trans hfind)
      exact hlost
    · intro header hb' hhead hfind'
      obtain rfl := Option.some.inj (hhead.symm.trans x.header_head)
      obtain rfl := Option.some.inj (hfind'.symm.trans hfind)
      exact hout
  · rintro ⟨hlost, hout⟩
    exact ⟨hlost x.header hb x.header_head hfind, hout x.header hb x.header_head hfind⟩

end Extracted

theorem sumLoop_singleEntry (blocks : SetVector BlockId) (h : blocks.elems = [2]) :
    SingleEntry sumLoop blocks 2 := by
  intro b _ hbs hne
  rw [SetVector.mem_def, h] at hbs
  exact absurd (List.mem_singleton.mp hbs) hne

theorem newFunction_selfContained_iff_sumLoop : ∃ (ce ce' : CodeExtractor) (M' : Module) (f : FuncId) (F : Function),
    cloneCodeRegion { ce with accesses := none } sumLoop = some (ce', M', some f) ∧
    M'.funcs.find? (fun g => g.id = f) = some F ∧
    (SelfContained F ↔
      LostPHIsUnused sumLoop { ce with accesses := none } ∧ OutputsCloned sumLoop { ce with accesses := none }) := by
  have hrun : sumReport.isSome = true := by decide
  obtain ⟨⟨ce, ce', M', f, F, ds⟩, hr⟩ := Option.isSome_iff_exists.mp hrun
  obtain ⟨hce, hclone, -, -⟩ := bodyReport_spec hr
  have hall : (preparedExtractor sumArgs sumLoop sumInfo).all (fun ce => ce.accesses = none &&
      ce.blocks.elems = [2]) = true := by decide
  rw [hce, Option.all_some, Bool.and_eq_true, decide_eq_true_eq, decide_eq_true_eq] at hall
  have hprep := hce
  unfold preparedExtractor at hprep
  obtain ⟨ce₀, h0, hp⟩ := Option.bind_eq_some_iff.mp hprep
  have hclone' : cloneCodeRegion { ce with accesses := none } sumLoop = some (ce', M', some f) := by
    rw [← hall.1]
    exact hclone
  obtain ⟨F', hF', hiff⟩ := newFunction_selfContained_iff sumLoop_wf sumLoop_verified sumLoop_validUses h0
    (fun b hb => sumLoop_loopBlocks.exist b (List.mem_filter.mp hb).1) hp (by simp) (fun header hh => by
      rw [hall.2] at hh
      obtain rfl := Option.some.inj hh
      exact sumLoop_singleEntry ce.blocks hall.2) hclone'
  exact ⟨ce, ce', M', f, F', hclone', hF', hiff⟩

/- `for (i = 0; i < n; ++i) { x = i % 2 ? 1 : 0; a[i] = x + x; }`: two edges lead to the block that
stores, so that it starts with the PHI `x`. -/
def joinLoop : Module where
  funcs := [{ id := 9, params := [⟨"a", .ptr (.int 32) 0⟩, ⟨"n", .int 32⟩], isVarArg := false, blocks :=
    [⟨0, [Inst.uncondBr 20 1], false⟩,
     ⟨1, [⟨10, .phi, .int 32, [.const (.int 32 0), .inst 16 (.int 32)], [0, 5], []⟩,
          ⟨12, .other 0, .int 1, [.inst 10 (.int 32), .arg 9 1 (.int 32)], [], []⟩,
          ⟨21, .br, .void, [.inst 12 (.int 1)], [], [2, 6]⟩], false⟩,
     ⟨2, [⟨17, .other 1, .int 1, [.inst 10 (.int 32)], [], []⟩,
          ⟨22, .br, .void, [.inst 17 (.int 1)], [], [3, 4]⟩], false⟩,
     ⟨3, [Inst.uncondBr 23 4], false⟩,
     ⟨4, [⟨11, .phi, .int 32, [.const (.int 32 0), .const (.int 32 1)], [2, 3], []⟩,
          ⟨15, .add, .int 32, [.inst 11 (.int 32), .inst 11 (.int 32)], [], []⟩,
          ⟨13, .getElementPtr, .ptr (.int 32) 0, [.arg 9 0 (.ptr (.int 32) 0), .inst 10 (.int 32)], [], []⟩,
          ⟨14, .store, .void, [.inst 15 (.int 32), .inst 13 (.ptr (.int 32) 0)], [], []⟩,
          Inst.uncondBr 24 5], false⟩,
     ⟨5, [⟨16, .add, .int 32, [.inst 10 (.int 32), .const (.int 32 1)], [], []⟩,
          Inst.uncondBr 25 1], false⟩,
     ⟨6, [⟨26, .ret, .void, [], [], []⟩], false⟩] }]
  nextId := 30
  valueName := fun _ => ""
  initUsesBlockAddress := fun _ => false

def joinArgs : CloneLoopArgs := { sumArgs with selected := [4], rpo := [1, 2, 3, 4, 5] }

/- The PHI of the region stays in the old function, where the clone of the addition still reads it. -/
theorem joinLoop_refersBack : ∃ ce ce' M' f F, preparedExtractor joinArgs joinLoop sumInfo = some ce ∧
    ce.blocks.elems = [4] ∧ cloneCodeRegion ce joinLoop = some (ce', M', some f) ∧
    M'.funcs.find? (fun g => g.id = f) = some F ∧ ¬SelfContained F := by
  have hrun : ((preparedExtractor joinArgs joinLoop sumInfo).bind fun ce =>
      (cloneCodeRegion ce joinLoop).bind fun r => r.2.2.bind fun f =>
        (r.2.1.funcs.find? fun g => g.id = f).map fun F => (ce, r.1, r.2.1, f, F)).any (fun r =>
      r.1.blocks.elems = [4] && (r.2.2.2.2.insts.any fun i => decide (.inst 11 (.int 32) ∈ i.operands)) &&
        r.2.2.2.2.insts.all fun i => decide (i.id ≠ 11)) = true := by decide
  obtain ⟨⟨ce, ce', M', f, F⟩, hr, hany⟩ := (Option.any_eq_true _ _).mp hrun
  obtain ⟨ce, hce, hr⟩ := Option.bind_eq_some_iff.mp hr
  obtain ⟨⟨ce', M', f⟩, hclone, hr⟩ := Option.bind_eq_some_iff.mp hr
  obtain ⟨f, rfl, hr⟩ := Option.bind_eq_some_iff.mp hr
  obtain ⟨F, hF, hr⟩ := Option.map_eq_some_iff.mp hr
  cases hr
  rw [Bool.and_eq_true, Bool.and_eq_true, decide_eq_true_eq] at hany
  obtain ⟨⟨hblocks, huse⟩, hno⟩ := hany
  refine ⟨ce, ce', M', f, F, hce, hblocks, hclone, hF, fun hself => ?_⟩
  obtain ⟨i, hi, hiop⟩ := List.any_eq_true.mp huse
  obtain ⟨x, hx, hid⟩ := (hself i hi).1 _ (of_decide_eq_true hiop)
  exact of_decide_eq_true (List.all_eq_true.mp hno x hx) hid

end Atrox
