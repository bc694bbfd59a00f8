import Atrox.Transforms.CloneSevered
import Atrox.Transforms.FlattenedGEP

/-!
# The clones after flattening

Instruction by instruction: a copy, or what a GEP with an access through it was flattened to.
-/

namespace Atrox
open IR Lib

/- Some access goes through the GEP, and the GEP through more than one dimension. -/
def flattens (M : Module) (accesses : List InstId) (gep : Inst) : Bool :=
  1 < dimensions gep && accesses.any fun a => accessGEP M a = some gep

/- What stands in the clone for an instruction, and the entry of `VMap` for it. -/
inductive Piece (M : Module) (accesses : List InstId) (i : Inst) : List Inst → Option Value → Prop where
  | copy : flattens M accesses i = false →
      Piece M accesses i [cloneInst M.nextId i] (some (cloneInst M.nextId i).val)
  | flat (base r : Value) (idx : List Value) (n : Nat) (new : IRBuilder) :
      flattens M accesses i = true → i.op = .getElementPtr → i.operands = base :: idx → 2 * M.nextId ≤ n →
      flattenGEP (cloneInst M.nextId i) base idx (getDecomposedArraySizes base.ty) n = some (r, new) →
      Piece M accesses i new.insts (some r)

/- The clone whose instructions `g` gives. -/
def expand (base : Nat) (g : Inst → List Inst) (b : Block) : Block where
  id := base + b.id
  insts := b.insts.flatMap g
  hasAddressTaken := false

structure CloneShape (M : Module) (bs : List BlockId) (accesses : List InstId) (cs : List Block)
    (vm : ValueMap) (g : Inst → List Inst) : Prop where
  blocks : cs = (M.region bs).map (expand M.nextId g)
  piece : ∀ i ∈ M.regionInsts bs, Piece M accesses i (g i) (vm.val i.val)

theorem regionInsts_mem {M : Module} (hM : M.Ids) {bs : List BlockId} {i : Inst} :
    i ∈ M.regionInsts bs ↔ ∃ b ∈ M.blocks, b.id ∈ bs ∧ i ∈ b.insts := by
  simp only [Module.regionInsts, List.mem_flatMap, mem_region hM, and_assoc]

theorem regionInsts_sub {M : Module} (hM : M.Ids) {bs : List BlockId} {i : Inst}
    (h : i ∈ M.regionInsts bs) : i ∈ M.insts := by
  obtain ⟨b, hb, -, hi⟩ := (regionInsts_mem hM).mp h
  exact List.mem_flatMap.mpr ⟨b, hb, hi⟩

theorem definedIn_iff {M : Module} (hM : M.Ids) {bs : List BlockId} {n : InstId} :
    M.definedIn bs n = true ↔ ∃ i ∈ M.regionInsts bs, i.id = n := by
  simp only [Module.definedIn, Block.has, List.any_eq_true, Bool.and_eq_true, decide_eq_true_eq,
    regionInsts_mem hM]
  constructor
  · rintro ⟨b, hb, hbs, i, hi, rfl⟩
    exact ⟨i, ⟨b, hb, hbs, hi⟩, rfl⟩
  · rintro ⟨i, ⟨b, hb, hbs, hi⟩, rfl⟩
    exact ⟨b, hb, hbs, i, hi, rfl⟩

section Access
variable {M : Module} {f : FuncId} {cs : List Block} {n : Nat}

theorem clonedModule_insts_old : ∀ i ∈ M.insts, i ∈ (clonedModule M f cs n).insts := by
  intro i hi
  obtain ⟨b, hb, hib⟩ := List.mem_flatMap.mp hi
  obtain ⟨g, hg, hbg⟩ := List.mem_flatMap.mp hb
  refine List.mem_flatMap.mpr ⟨b, List.mem_flatMap.mpr ⟨_, List.mem_map_of_mem hg, ?_⟩, hib⟩
  split
  · exact List.mem_append_left _ hbg
  · exact hbg

/- Old instructions are found among the clones as before. -/
theorem clonedModule_inst? (hM : M.WF) (hge : ∀ i ∈ cs.flatMap Block.insts, M.nextId ≤ i.id) {j : InstId}
    (hj : M.nextId > j) : (clonedModule M f cs n).inst? j = M.inst? j := by
  have hold : ∀ x, (clonedModule M f cs n).inst? j = some x → x ∈ M.insts := by
    intro x hx
    rcases clonedModule_insts M f cs n x (inst?_mem hx) with hm | hm
    · exact hm
    · have h1 := hge x hm
      have h2 : x.id = j := inst?_id hx
      omega
  cases hx : (clonedModule M f cs n).inst? j with
  | some x =>
    have hid : x.id = j := inst?_id hx
    rw [← hid, inst?_of_mem hM.toIds (hold x hx)]
  | none =>
    cases hy : M.inst? j with
    | none => rfl
    | some y =>
      have hno := List.find?_eq_none.mp hx y (clonedModule_insts_old y (inst?_mem hy))
      have hid : y.id = j := inst?_id hy
      exact absurd (by simpa using hid) hno

theorem accessGEP_some {a : InstId} {gep : Inst} (h : accessGEP M a = some gep) :
    gep ∈ M.insts ∧ gep.op = .getElementPtr := by
  unfold accessGEP at h
  obtain ⟨i, -, h⟩ := Option.bind_eq_some_iff.mp h
  obtain ⟨p, -, h⟩ := Option.bind_eq_some_iff.mp h
  cases p with
  | inst g t =>
    obtain ⟨gep', hg, h⟩ := Option.bind_eq_some_iff.mp h
    split at h
    · next hop =>
      cases h
      exact ⟨inst?_mem hg, hop⟩
    · cases h
  | _ => cases h

theorem getPointerOperand_mem {i : Inst} {p : Value} (h : getPointerOperand i = some p) : p ∈ i.operands := by
  unfold getPointerOperand at h
  split at h
  · exact List.mem_of_getElem? h
  · exact List.mem_of_getElem? h
  · split at h
    · exact List.mem_of_getElem? h
    · exact List.mem_of_getElem? h
    · exact List.mem_of_getElem? h
    · cases h
  · cases h

/- The pointer operand follows a change of the operands. -/
theorem getPointerOperand_map {i u : Inst} {φ : Value → Value} (hop : u.op = i.op)
    (h : u.operands = i.operands.map φ) : getPointerOperand u = (getPointerOperand i).map φ := by
  unfold getPointerOperand
  rw [hop, h]
  split
  · exact List.getElem?_map
  · exact List.getElem?_map
  · split
    · exact List.getElem?_map
    · exact List.getElem?_map
    · exact List.getElem?_map
    · rfl
  · rfl

theorem accessGEP_cloned (hM : M.WF) (hge : ∀ i ∈ cs.flatMap Block.insts, M.nextId ≤ i.id) {a : InstId}
    (ha : M.nextId > a) : accessGEP (clonedModule M f cs n) a = accessGEP M a := by
  unfold accessGEP
  rw [clonedModule_inst? hM hge ha]
  cases hi : M.inst? a with
  | none => rfl
  | some i =>
    simp only [bind, Option.bind_some]
    cases hp : getPointerOperand i with
    | none => rfl
    | some p =>
      cases p with
      | inst g t =>
        have hlt := hM.operands_lt i (inst?_mem hi) g t (getPointerOperand_mem hp)
        simp only [Option.bind_some, clonedModule_inst? hM hge hlt]
      | _ => rfl

end Access

section Pieces
variable {M : Module} {bs : List BlockId} {accesses : List InstId}

theorem cloneInst_id (base : Nat) (i : Inst) : (cloneInst base i).id = base + i.id := rfl

theorem flattens_concat {a : InstId} {i : Inst} (h : accessGEP M a ≠ some i) :
    flattens M (accesses ++ [a]) i = flattens M accesses i := by
  simp only [flattens, List.any_append, List.any_cons, List.any_nil, Bool.or_false, h, decide_false]

theorem flattens_mono {a : InstId} {i : Inst} (h : flattens M accesses i = true) :
    flattens M (accesses ++ [a]) i = true := by
  simp only [flattens, List.any_append, Bool.and_eq_true, Bool.or_eq_true] at h ⊢
  exact ⟨h.1, .inl h.2⟩

/- Numbers of a piece: that of the copy, or fresh ones. -/
theorem Piece.ids {i : Inst} {is : List Inst} {v : Option Value} (h : Piece M accesses i is v) :
    is = [cloneInst M.nextId i] ∨ ∀ j ∈ is, 2 * M.nextId ≤ j.id := by
  cases h with
  | copy => exact .inl rfl
  | flat base r idx n new _ _ _ hn hnew =>
    refine .inr fun j hj => ?_
    obtain ⟨⟨hids, -⟩, -⟩ := flattenGEP_spec hnew
    have hm : j.id ∈ List.range' n new.insts.length := hids ▸ List.mem_map_of_mem hj
    rw [List.mem_range'_1] at hm
    omega

/- Operands of a piece: those of the instruction, constants, and instructions of the piece. -/
theorem Piece.operands {i : Inst} {is : List Inst} {v : Option Value} (h : Piece M accesses i is v) :
    ∀ j ∈ is, ∀ w ∈ j.operands, w ∈ i.operands ∨ (∃ c, w = .const c) ∨
      ∃ y ∈ is, w = y.val ∧ 2 * M.nextId ≤ y.id := by
  have hids := h.ids
  intro j hj w hw
  cases h with
  | copy =>
    rw [List.mem_singleton.mp hj] at hw
    exact .inl hw
  | flat base r idx n new _ _ hops hn hnew =>
    obtain ⟨hclosed, -⟩ := flattenGEP_closed (S := fun w => w ∈ i.operands ∨ ∃ c, w = .const c)
      (fun c => .inr ⟨c, rfl⟩) (.inl (by rw [hops]; exact List.mem_cons_self ..))
      (fun w hw => .inl (by rw [hops]; exact List.mem_cons_of_mem _ hw)) hnew
    rcases hclosed.operands j hj w hw with (hw | hw) | ⟨y, hy, rfl⟩
    · exact .inl hw
    · exact .inr (.inl hw)
    · refine .inr (.inr ⟨y, hy, rfl, ?_⟩)
      rcases hids with he | hge
      · have hlast := flattenGEP_spec hnew
        obtain ⟨⟨hids', -⟩, -⟩ := hlast
        have hm : y.id ∈ List.range' n new.insts.length := hids' ▸ List.mem_map_of_mem hy
        rw [List.mem_range'_1] at hm
        omega
      · exact hge y hy

/- The entry of `VMap` is an instruction of the piece. -/
theorem Piece.val {i : Inst} {is : List Inst} {v : Option Value} (h : Piece M accesses i is v) :
    ∃ y ∈ is, v = some y.val := by
  cases h with
  | copy => exact ⟨_, List.mem_singleton_self _, rfl⟩
  | flat base r idx n new _ _ _ hn hnew =>
    obtain ⟨-, is, y, sum, c, hinsts, hval, -⟩ := flattenGEP_spec hnew
    exact ⟨y, by rw [show new.insts = is ++ [y] from hinsts]; simp, congrArg some hval.symm⟩

theorem Piece.of_not_gep {i : Inst} {is : List Inst} {v : Option Value} (h : Piece M accesses i is v)
    (hop : i.op ≠ .getElementPtr) :
    is = [cloneInst M.nextId i] ∧ v = some (.inst (M.nextId + i.id) i.ty) := by
  cases h with
  | copy => exact ⟨rfl, rfl⟩
  | flat _ _ _ _ _ _ hgep => exact absurd hgep hop

/- A piece without the number of the GEP stays as it is. -/
theorem Piece.place_other (hM : M.WF) (gep : Inst) (new : List Inst) (r : Value) {i : Inst} {is : List Inst}
    {v : Option Value}
    (h : Piece M accesses i is v) (hi : i ∈ M.insts) (hge : M.nextId ≤ gep.id) (hlt : 2 * M.nextId > gep.id)
    (hne : M.nextId + i.id ≠ gep.id) :
    ((is.map (Inst.replaceUsesOfWith gep.val r)).flatMap fun x => if x.id = gep.id then new else [x]) = is ∧
      (v.map fun w => if w = gep.val then r else w) = v := by
  have hid : ∀ j ∈ is, j.id ≠ gep.id := by
    intro j hj he
    rcases h.ids with rfl | hfresh
    · rw [List.mem_singleton.mp hj] at he
      exact hne he
    · have := hfresh j hj
      omega
  constructor
  · have hmap : is.map (Inst.replaceUsesOfWith gep.val r) = is := by
      conv_rhs => rw [← List.map_id is]
      apply List.map_congr_left
      intro j hj
      have hops : j.operands.map (fun w => if w = gep.val then r else w) = j.operands := by
        conv_rhs => rw [← List.map_id j.operands]
        apply List.map_congr_left
        intro w hw
        rw [if_neg, id]
        rintro rfl
        rcases h.operands j hj _ hw with hw | ⟨c, hc⟩ | ⟨y, -, he, hy⟩
        · have := hM.operands_lt i hi gep.id gep.ty hw
          omega
        · cases hc
        · have he' : gep.id = y.id := by injection he
          omega
      rw [Inst.replaceUsesOfWith, hops, id]
    rw [hmap]
    conv_rhs => rw [← List.flatMap_singleton' is]
    apply List.flatMap_congr
    intro j hj
    rw [if_neg (hid j hj)]
  · obtain ⟨y, hy, rfl⟩ := h.val
    rw [Option.map_some, if_neg]
    intro he
    have he' : y.id = gep.id := by injection he
    exact hid y hy he'

end Pieces

section Flatten
variable {M : Module} {bs : List BlockId} {accesses : List InstId} {f : FuncId} {cs : List Block} {n : Nat}
  {vm : ValueMap} {g : Inst → List Inst}

theorem CloneShape.insts (h : CloneShape M bs accesses cs vm g) :
    cs.flatMap Block.insts = (M.regionInsts bs).flatMap g := by
  simp only [h.blocks, List.flatMap_map, expand, Module.regionInsts, List.flatMap_assoc]

theorem CloneShape.start (hM : M.WF) : CloneShape M bs []
    ((M.region bs).map (cloneBasicBlock M.nextId)) (cloneMap M bs) fun i => [cloneInst M.nextId i] := by
  refine ⟨?_, fun i hi => ?_⟩
  · apply List.map_congr_left
    intro b _
    simp only [expand, cloneBasicBlock, ← List.map_eq_flatMap]
  · have hdef : M.definedIn bs i.id = true := (definedIn_iff hM.toIds).mpr ⟨i, hi, rfl⟩
    have hval : (cloneMap M bs).val i.val = some (cloneInst M.nextId i).val := by
      simp only [Inst.val, cloneMap, hdef, if_true]
      rfl
    rw [hval]
    exact .copy (by simp [flattens])

/- The GEP of an access is in the region when it has an entry in `VMap`. -/
theorem access_region (hM : M.WF) (hc : Clones M bs cs n vm) {a : InstId} {ptr : Inst} {w : Value}
    (hptr : accessGEP M a = some ptr) (hw : vm.val ptr.val = some w) : ptr ∈ M.regionInsts bs := by
  have hdom := hc.val_dom ptr.val
  rw [hw] at hdom
  have hdef : M.definedIn bs ptr.id = true := by
    by_contra hno
    simp [cloneMap, Inst.val, hno] at hdom
  obtain ⟨i, hi, hid⟩ := (definedIn_iff hM.toIds).mp hdef
  rw [← inst_unique hM.toIds (regionInsts_sub hM.toIds hi) (accessGEP_some hptr).1 hid]
  exact hi

theorem CloneShape.mem (h : CloneShape M bs accesses cs vm g) {i j : Inst} (hi : i ∈ M.regionInsts bs)
    (hj : j ∈ g i) : j ∈ cs.flatMap Block.insts := by
  rw [h.insts]
  exact List.mem_flatMap.mpr ⟨i, hi, hj⟩

/- An access that is skipped goes through a GEP that is flat, or flattened already. -/
theorem CloneShape.skip (hM : M.WF) (h : CloneShape M bs accesses cs vm g) (hc : Clones M bs cs n vm)
    {a : InstId} (ha : M.nextId > a) (hs : Skips f M cs n vm a) :
    CloneShape M bs (accesses ++ [a]) cs vm g := by
  refine ⟨h.blocks, fun i hi => ?_⟩
  have hp := h.piece i hi
  generalize hgi : g i = is at hp
  generalize hvi : vm.val i.val = v at hp
  cases hp with
  | copy hno =>
    refine .copy ?_
    by_cases hai : accessGEP M a = some i
    · obtain ⟨j, t, hval, hdim⟩ := hs i ((accessGEP_cloned hM hc.insts_ge ha).trans hai)
      rw [hval] at hvi
      have hj : j = M.nextId + i.id := by
        have hv := Option.some.inj hvi
        injection hv
      have hle := hdim (cloneInst M.nextId i) (h.mem hi (by rw [hgi]; exact List.mem_singleton_self _))
        hj.symm (accessGEP_some hai).2
      have hdi : dimensions i ≤ 1 := hle
      rw [flattens, decide_eq_false (by omega), Bool.false_and]
    · rw [flattens_concat hai]
      exact hno
  | flat base r idx m new hyes hop hops hm hnew =>
    exact .flat base r idx m new (flattens_mono hyes) hop hops hm hnew

/- A GEP that gives way is the copy of a GEP of the region. -/
theorem CloneShape.placed (hM : M.WF) (h : CloneShape M bs accesses cs vm g) (hc : Clones M bs cs n vm)
    {a : InstId} (ha : M.nextId > a) {gep : Inst} {r : Value} {new : IRBuilder}
    (hp : Places f M cs n vm a gep r new) :
    ∃ i ∈ M.regionInsts bs, accessGEP M a = some i ∧ gep = cloneInst M.nextId i ∧
      g i = [cloneInst M.nextId i] ∧ vm.val i.val = some gep.val := by
  obtain ⟨ptr, t, hptr, hval⟩ := hp.access
  rw [accessGEP_cloned hM hc.insts_ge ha] at hptr
  have hreg := access_region hM hc hptr hval
  have hpiece := h.piece ptr hreg
  rw [hval] at hpiece
  generalize hgi : g ptr = is at hpiece
  generalize hv : some (Value.inst gep.id t) = v at hpiece
  cases hpiece with
  | copy hno =>
    have hid : gep.id = (cloneInst M.nextId ptr).id := by
      have hv' := Option.some.inj hv
      injection hv'
    have hmem := h.mem hreg (j := cloneInst M.nextId ptr) (by rw [hgi]; exact List.mem_singleton_self _)
    obtain rfl := List.inj_on_of_nodup_map hc.insts_nodup hp.mem hmem hid
    exact ⟨ptr, hreg, hptr, rfl, hgi, hval.trans hv⟩
  | flat base u idx m old hyes hop hops hm hold =>
    -- a GEP that was put in has no dimensions
    exfalso
    obtain ⟨-, is', y, sum, c, hinsts, hy, -⟩ := flattenGEP_spec hold
    have hyu : Value.inst gep.id t = y.val := (Option.some.inj hv).trans hy.symm
    have hid : gep.id = y.id := by injection hyu
    have hym : y ∈ old.insts := by
      rw [show old.insts = is' ++ [y] from hinsts]
      simp
    have hmem := h.mem hreg (j := y) (by rw [hgi]; exact hym)
    obtain rfl := List.inj_on_of_nodup_map hc.insts_nodup hp.mem hmem hid
    obtain ⟨q, rest, hq, hsizes⟩ := flattenGEP_last hold gep hym hp.op
    have hdim := hp.dims
    rw [dimensions, gepPointer, hq] at hdim
    simp [hsizes] at hdim

theorem CloneShape.place (hM : M.WF) (h : CloneShape M bs accesses cs vm g) (hc : Clones M bs cs n vm)
    {a : InstId} (ha : M.nextId > a) {gep : Inst} {r : Value} {new : IRBuilder}
    (hp : Places f M cs n vm a gep r new) :
    CloneShape M bs (accesses ++ [a]) (cs.map (placeGEP gep new.insts r)) (vm.follow gep.val r) fun i =>
      ((g i).map (Inst.replaceUsesOfWith gep.val r)).flatMap fun x =>
        if x.id = gep.id then new.insts else [x] := by
  obtain ⟨ptr, hreg, hptr, rfl, hgp, hval⟩ := h.placed hM hc ha hp
  obtain ⟨base, idx, hops, hnew⟩ := hp.flat
  refine ⟨?_, fun i hi => ?_⟩
  · rw [h.blocks, List.map_map]
    apply List.map_congr_left
    intro b _
    simp only [Function.comp_apply, placeGEP, expand, List.map_flatMap, List.flatMap_assoc]
  · have him := regionInsts_sub hM.toIds hi
    by_cases hip : i = ptr
    · subst hip
      have hnew' : (([cloneInst M.nextId i].map (Inst.replaceUsesOfWith (cloneInst M.nextId i).val r)).flatMap
          fun x => if x.id = (cloneInst M.nextId i).id then new.insts else [x]) = new.insts := by
        simp only [List.map_singleton, List.flatMap_singleton]
        exact if_pos rfl
      have hv' : (vm.follow (cloneInst M.nextId i).val r).val i.val = some r := by
        simp only [ValueMap.follow, hval, Option.map_some, if_true]
      rw [hgp, hnew', hv']
      refine .flat base r idx n new ?_ (accessGEP_some hptr).2 hops hc.nextId_ge hnew
      have hdim : 1 < dimensions i := hp.dims
      simp [flattens, hdim, hptr]
    · have hne : M.nextId + i.id ≠ (cloneInst M.nextId ptr).id := by
        intro he
        exact hip (inst_unique hM.toIds him (accessGEP_some hptr).1 (Nat.add_left_cancel he))
      have hlt := hM.insts_lt ptr (accessGEP_some hptr).1
      obtain ⟨h1, h2⟩ := (h.piece i hi).place_other hM (cloneInst M.nextId ptr) new.insts r him
        (Nat.le_add_right ..) (by rw [cloneInst_id]; omega) hne
      have h2' : (vm.follow (cloneInst M.nextId ptr).val r).val i.val = vm.val i.val := h2
      rw [h1, h2']
      have hai : accessGEP M a ≠ some i := fun he => hip (Option.some.inj (he.symm.trans hptr))
      have hold := h.piece i hi
      generalize g i = is at hold
      generalize vm.val i.val = v at hold
      cases hold with
      | copy hno => exact .copy (by rw [flattens_concat hai]; exact hno)
      | flat b u ix m old hyes hop hops' hm hold =>
        exact .flat b u ix m old (by rw [flattens_concat hai]; exact hyes) hop hops' hm hold

end Flatten

theorem Cloned.shape {ce : CodeExtractor} {M : Module} {header : BlockId} {old : Function}
    (k : Cloned ce M header old) (hacc : ∀ a ∈ ce.toFlatten, M.nextId > a) :
    ∃ g, CloneShape M ce.blocks.elems ce.toFlatten k.clones k.vm g := by
  refine k.flatten_run (P := fun as cs _ vm => ∃ g, CloneShape M ce.blocks.elems as cs vm g)
    ⟨_, CloneShape.start k.wf⟩ ?_ ?_
  · rintro pre a cs n vm ha hc ⟨g, hg⟩ hs
    exact ⟨g, hg.skip k.wf hc (hacc a ha) hs⟩
  · rintro pre a cs n vm gep r new ha hc ⟨g, hg⟩ hp
    exact ⟨_, hg.place k.wf hc (hacc a ha) hp⟩

end Atrox
