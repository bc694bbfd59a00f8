import Atrox.Lib.Paths
import Atrox.Transforms.CloneShape
import Atrox.Transforms.ExitStores
import Atrox.Transforms.SeveredBlocks

/-!
# What the exit block stores

All edges that leave the region end in one exit block, which stores every scalar output
some input is mapped to. Whether the clone of the output is computed on the way there.
-/

namespace Atrox
open IR Lib

section Property

/- The value is an instruction of the block. -/
def IR.Block.defines (b : Block) : Value → Bool
  | .inst j _ => b.has j
  | _ => false

def IR.Function.Edge (F : Function) (a b : BlockId) : Prop := ∃ x ∈ F.blocks, x.id = a ∧ b ∈ x.succs

/- The value is there on every path from the block `a` to the block `b`. -/
def DefinedOnPaths (F : Function) (a b : BlockId) (v : Value) : Prop :=
  match v with
  | .inst _ _ => Unavoidable F.Edge a b fun n => ∃ x ∈ F.blocks, x.id = n ∧ x.defines v = true
  | .arg f _ _ => f = F.id
  | _ => True

/- Stores of the exit block, the second one, store what is there on every path from the entry. -/
def ExitStoresDefined (F : Function) : Prop :=
  ∀ entry ∈ F.blocks.head?, ∀ exit ∈ F.blocks[1]?, ∀ st ∈ exit.insts, st.op = .store →
    ∀ v ∈ st.operands.head?, DefinedOnPaths F entry.id exit.id v

/- Edges inside a set of blocks, and blocks an edge leaves it from. -/
def RegionEdge (M : Module) (blocks : SetVector BlockId) (a b : BlockId) : Prop :=
  b ∈ blocks ∧ ∃ x ∈ M.region blocks.elems, x.id = a ∧ b ∈ x.succs

def LeavesRegion (M : Module) (blocks : SetVector BlockId) (a : BlockId) : Prop :=
  ∃ x ∈ M.region blocks.elems, x.id = a ∧ ∃ s ∈ x.succs, s ∉ blocks

/- No way through the region avoids a scalar output that an input is mapped to. -/
def OutputsUnavoidable (M : Module) (ce : CodeExtractor) (header : BlockId) : Prop :=
  ∀ v ∈ ce.inputs, ce.isBidirectional v = true → ∀ i, (ce.inputToOutputMap.lookup v).getD 0 = i →
    ∀ o, ce.outputs.elems[i]? = some o → o.ty.isPointerTy = false → ∀ b, LeavesRegion M ce.blocks b →
      Unavoidable (RegionEdge M ce.blocks) header b fun n =>
        ∃ x ∈ M.region ce.blocks.elems, x.id = n ∧ x.defines o = true

end Property

section Edges
variable {ce : CodeExtractor} {M : Module} {header : BlockId} {old : Function}
  (k : Cloned ce M header old) {g : Inst → List Inst}

/- The edges out of a clone: those of the region, and the ones that leave it go to the exit. -/
theorem Cloned.clone_edge_iff (hg : CloneShape M ce.blocks.elems ce.toFlatten k.clones k.vm g)
    (ht : ∀ b ∈ M.region ce.blocks.elems, b.Terminated) {a : BlockId} (ha : a ∈ ce.blocks) (y : BlockId) :
    k.newFunction.Edge (M.nextId + a) y ↔
      (∃ s, RegionEdge M ce.blocks a s ∧ y = M.nextId + s) ∨ LeavesRegion M ce.blocks a ∧ y = k.ctx.exit := by
  constructor
  · rintro ⟨x, hx, hid, hy⟩
    obtain ⟨b, hb, rfl, rfl⟩ := k.clone_inv hg hx ha hid
    rw [k.finish_succs hg hb (ht b hb)] at hy
    obtain ⟨s, hs, rfl⟩ := List.mem_map.mp hy
    unfold Cloned.target
    split
    · next hin => exact .inl ⟨s, ⟨hin, b, hb, rfl, hs⟩, rfl⟩
    · next hout => exact .inr ⟨⟨b, hb, rfl, s, hs, hout⟩, rfl⟩
  · have hclone : ∀ b ∈ M.region ce.blocks.elems, b.id = a → ∀ s ∈ b.succs,
        k.newFunction.Edge (M.nextId + a) (k.target s) := by
      rintro b hb rfl s hs
      refine ⟨k.finish g b, ?_, k.finish_id g b, ?_⟩
      · rw [k.blocks_eq hg]
        exact List.mem_append_right _ (List.mem_map_of_mem hb)
      · rw [k.finish_succs hg hb (ht b hb)]
        exact List.mem_map_of_mem hs
    rintro (⟨s, ⟨hin, b, hb, he, hs⟩, rfl⟩ | ⟨⟨b, hb, he, s, hs, hout⟩, rfl⟩)
    · have h := hclone b hb he s hs
      rw [Cloned.target, if_pos hin] at h
      exact h
    · have h := hclone b hb he s hs
      rw [Cloned.target, if_neg hout] at h
      exact h

theorem Cloned.root_edge_iff (hg : CloneShape M ce.blocks.elems ce.toFlatten k.clones k.vm g) (y : BlockId) :
    k.newFunction.Edge k.ctx.root y ↔ y = M.nextId + header := by
  have hn := k.numbers.nextId_ge
  constructor
  · rintro ⟨x, hx, hid, hy⟩
    rcases k.block_inv hg hx with rfl | rfl | ⟨b, hb, rfl⟩
    · rw [k.root_succs] at hy
      exact List.mem_singleton.mp hy
    · rw [k.exit_succs] at hy
      cases hy
    · rw [k.finish_id] at hid
      have h1 := (k.region_lt hb).1
      have h2 : M.nextId + b.id = k.n + 1 := hid
      omega
  · rintro rfl
    refine ⟨rootBlock k.ctx k.root (M.nextId + header), ?_, rfl, ?_⟩
    · rw [k.blocks_eq hg]
      simp
    · rw [k.root_succs]
      exact List.mem_singleton_self _

theorem Cloned.exit_no_edge (hg : CloneShape M ce.blocks.elems ce.toFlatten k.clones k.vm g) (y : BlockId) :
    ¬k.newFunction.Edge k.ctx.exit y := by
  have hn := k.numbers.nextId_ge
  rintro ⟨x, hx, hid, hy⟩
  rcases k.block_inv hg hx with rfl | rfl | ⟨b, hb, rfl⟩
  · have : k.n + 1 = k.n + 2 := hid
    omega
  · rw [k.exit_succs] at hy
    cases hy
  · rw [k.finish_id] at hid
    have h1 := (k.region_lt hb).1
    have h2 : M.nextId + b.id = k.n + 2 := hid
    omega

/- The region stands in the new function between its root and its exit. -/
theorem Cloned.embeds (hg : CloneShape M ce.blocks.elems ce.toFlatten k.clones k.vm g)
    (ht : ∀ b ∈ M.region ce.blocks.elems, b.Terminated) :
    Embeds (RegionEdge M ce.blocks) (· ∈ ce.blocks) (LeavesRegion M ce.blocks) header
      k.newFunction.Edge k.ctx.root k.ctx.exit (M.nextId + ·) := by
  have hn := k.numbers.nextId_ge
  refine ⟨k.header_mem, fun a b _ hab => hab.1, fun a y ha => k.clone_edge_iff hg ht ha y,
    k.root_edge_iff hg, k.exit_no_edge hg, ?_, ?_⟩
  · intro he
    have : k.n + 1 = k.n + 2 := he
    omega
  · intro a ha he
    obtain ⟨y, hy, rfl⟩ := k.exist a ha
    have h1 := k.wf.blocks_lt y hy
    have h2 : M.nextId + y.id = k.n + 2 := he
    omega

end Edges

section Values
variable {ce : CodeExtractor} {M : Module} {header : BlockId} {old : Function}
  (k : Cloned ce M header old) {g : Inst → List Inst}

/- A scalar value with a number below the counter: its instruction in the region has its type. -/
structure ScalarOf (M : Module) (bs : List BlockId) (o : Value) (j : InstId) (t : Ty) : Prop where
  eq : o = .inst j t
  lt : M.nextId > j
  scalar : t.isPointerTy = false
  ty : ∀ i ∈ M.regionInsts bs, i.id = j → i.ty = t
  gep : ∀ i ∈ M.regionInsts bs, i.op = .getElementPtr → i.ty.isPointerTy = true

theorem ScalarOf.not_gep {bs : List BlockId} {o : Value} {j : InstId} {t : Ty} (h : ScalarOf M bs o j t)
    {i : Inst} (hi : i ∈ M.regionInsts bs) (hij : i.id = j) : i.op ≠ .getElementPtr := by
  intro hop
  have hptr := h.gep i hi hop
  rw [h.ty i hi hij, h.scalar] at hptr
  cases hptr

/- What the exit stores for an output: its clone, or the output itself when it has none. -/
def Cloned.stored (o : Value) : Value := (k.vm.val o).getD o

theorem Cloned.stored_in (hg : CloneShape M ce.blocks.elems ce.toFlatten k.clones k.vm g) {o : Value} {j : InstId} {t : Ty}
    (ho : ScalarOf M ce.blocks.elems o j t) {i : Inst} (hi : i ∈ M.regionInsts ce.blocks.elems)
    (hij : i.id = j) : k.stored o = .inst (M.nextId + j) t := by
  have hval := ((hg.piece i hi).of_not_gep (ho.not_gep hi hij)).2
  have hoi : i.val = o := by
    rw [ho.eq, Inst.val, hij, ho.ty i hi hij]
  rw [hoi, hij, ho.ty i hi hij] at hval
  rw [Cloned.stored, hval, Option.getD_some]

theorem Cloned.stored_out {o : Value} (h : definedInRegion M ce.blocks o = false) : k.stored o = o := by
  cases hv : k.vm.val o with
  | none => rw [Cloned.stored, hv, Option.getD_none]
  | some w =>
    have hd := k.vm_isSome.mp (show (k.vm.val o).isSome = true by rw [hv]; rfl)
    rw [h] at hd
    cases hd

theorem Cloned.finish_has (hg : CloneShape M ce.blocks.elems ce.toFlatten k.clones k.vm g) {b : Block}
    (hb : b ∈ M.region ce.blocks.elems) {j : InstId} (hj : M.nextId > j)
    (h : (k.finish g b).has (M.nextId + j) = true) : b.has j = true := by
  obtain ⟨u, hu, hid⟩ := List.any_eq_true.mp h
  obtain ⟨x, hx, -, hcore⟩ := finishBlock_mem _ _ _ _ hu
  obtain ⟨i, hi, hxi⟩ := List.mem_flatMap.mp hx
  have hux := rewriteInst_core_id hcore
  have hid' : u.id = M.nextId + j := by simpa using hid
  rcases (hg.piece i (List.mem_flatMap.mpr ⟨b, hb, hi⟩)).ids with hy | hfresh
  · rw [hy] at hxi
    obtain rfl := List.mem_singleton.mp hxi
    have hxid := cloneInst_id M.nextId i
    refine List.any_eq_true.mpr ⟨i, hi, ?_⟩
    simp only [decide_eq_true_eq]
    omega
  · have := hfresh x hxi
    omega

/- The clone of a block defines what is stored for an output when the block defines the output. -/
theorem Cloned.defines_stored (hg : CloneShape M ce.blocks.elems ce.toFlatten k.clones k.vm g)
    (herase : eraseAll k.beforeErase (toRemove (k.functionWith rewriteBlock)) = some k.result)
    {o : Value} {j : InstId} {t : Ty} (ho : ScalarOf M ce.blocks.elems o j t) {st : Inst}
    (hst : st ∈ k.newFunction.insts) (hhead : k.stored o ∈ st.operands) {b : Block}
    (hb : b ∈ M.region ce.blocks.elems) :
    (k.finish g b).defines (k.stored o) = true ↔ b.defines o = true := by
  rw [ho.eq]
  by_cases hin : ∃ i ∈ M.regionInsts ce.blocks.elems, i.id = j
  · obtain ⟨i, hi, hij⟩ := hin
    have hs := k.stored_in hg ho hi hij
    rw [ho.eq] at hs
    rw [hs]
    rw [ho.eq, hs] at hhead
    refine ⟨k.finish_has hg hb ho.lt, fun hd => ?_⟩
    obtain ⟨y, hy, hyj⟩ := List.any_eq_true.mp hd
    have hyj' : y.id = j := by simpa using hyj
    have hym : y ∈ M.regionInsts ce.blocks.elems := List.mem_flatMap.mpr ⟨b, hb, hy⟩
    have huse : st.uses (M.nextId + y.id) = true := by
      rw [hyj']
      exact List.any_eq_true.mpr ⟨_, hhead, by simp [Value.isInst]⟩
    have hcopy : cloneInst M.nextId y ∈ (expand M.nextId g b).insts :=
      List.mem_flatMap.mpr ⟨y, hy, by simp [((hg.piece y hym).of_not_gep (ho.not_gep hym hyj')).1]⟩
    have hres := k.has_finish hg herase hb hcopy hst huse
    rw [cloneInst_id, hyj'] at hres
    exact hres
  · have hout : definedInRegion M ce.blocks (.inst j t) = false := by
      cases hd : definedInRegion M ce.blocks (.inst j t) with
      | false => rfl
      | true => exact absurd ((definedIn_iff k.wf.toIds).mp hd) hin
    rw [k.stored_out hout]
    constructor
    · intro hd
      obtain ⟨u, hu, huj⟩ := List.any_eq_true.mp hd
      have h1 := k.finish_insts_ge hg hb u hu
      have h2 : u.id = j := by simpa using huj
      have h3 := ho.lt
      omega
    · intro hd
      obtain ⟨y, hy, hyj⟩ := List.any_eq_true.mp hd
      exact absurd ⟨y, List.mem_flatMap.mpr ⟨b, hb, hy⟩, by simpa using hyj⟩ hin

theorem Cloned.stored_inst (hacc : ∀ a ∈ ce.toFlatten, M.nextId > a) {o : Value} {j : InstId} {t : Ty}
    (ho : ScalarOf M ce.blocks.elems o j t) :
    ∃ i u, k.stored o = .inst i u ∧ k.n > i := by
  have hn := k.numbers.nextId_ge
  have hlt := ho.lt
  cases hv : k.vm.val o with
  | none =>
    refine ⟨j, t, ?_, by omega⟩
    rw [Cloned.stored, hv, Option.getD_none, ho.eq]
  | some w =>
    obtain ⟨g, hg⟩ := k.shape hacc
    have hd := k.vm_isSome.mp (show (k.vm.val o).isSome = true by rw [hv]; rfl)
    rw [ho.eq] at hd
    obtain ⟨i, hi, hij⟩ := (definedIn_iff k.wf.toIds).mp hd
    exact ⟨M.nextId + j, t, k.stored_in hg ho hi hij, by omega⟩

/- A stored clone is there on every path exactly when no way through the region avoids its output. -/
theorem Cloned.stored_defined_iff (hacc : ∀ a ∈ ce.toFlatten, M.nextId > a)
    (ht : ∀ b ∈ M.region ce.blocks.elems, b.Terminated)
    (herase : eraseAll k.beforeErase (toRemove (k.functionWith rewriteBlock)) = some k.result)
    {o : Value} {j : InstId} {t : Ty} (ho : ScalarOf M ce.blocks.elems o j t) {st : Inst}
    (hst : st ∈ k.newFunction.insts) (hhead : k.stored o ∈ st.operands) :
    DefinedOnPaths k.newFunction k.ctx.root k.ctx.exit (k.stored o) ↔
      ∀ b, LeavesRegion M ce.blocks b → Unavoidable (RegionEdge M ce.blocks) header b fun n =>
        ∃ x ∈ M.region ce.blocks.elems, x.id = n ∧ x.defines o = true := by
  obtain ⟨g, hg⟩ := k.shape hacc
  obtain ⟨i, u, hw, hlt⟩ := k.stored_inst hacc ho
  have hnew : ∀ x : Block, (∀ y ∈ x.insts, k.n ≤ y.id) → x.defines (k.stored o) = false := by
    intro x hx
    rw [hw, Bool.eq_false_iff]
    intro hd
    obtain ⟨y, hy, hyi⟩ := List.any_eq_true.mp hd
    have h1 := hx y hy
    have h2 : y.id = i := by simpa using hyi
    omega
  have hroot := hnew _ fun y hy => (root_insts k.root_eq rfl (M.nextId + header) y hy).1
  have hexit := hnew _ fun y hy => (exit_insts k.vm k.root_eq k.exit_eq y hy).1
  -- a block that defines it is a clone
  have hat : ∀ n, (∃ x ∈ k.newFunction.blocks, x.id = n ∧ x.defines (k.stored o) = true) →
      ∃ b ∈ M.region ce.blocks.elems, n = M.nextId + b.id ∧ b.defines o = true := by
    rintro n ⟨x, hx, rfl, hd⟩
    rcases k.block_inv hg hx with rfl | rfl | ⟨b, hb, rfl⟩
    · exact absurd (hd.symm.trans hroot) (by decide)
    · exact absurd (hd.symm.trans hexit) (by decide)
    · exact ⟨b, hb, k.finish_id g b, (k.defines_stored hg herase ho hst hhead hb).mp hd⟩
  have hdef : DefinedOnPaths k.newFunction k.ctx.root k.ctx.exit (k.stored o) ↔
      Unavoidable k.newFunction.Edge k.ctx.root k.ctx.exit fun n =>
        ∃ x ∈ k.newFunction.blocks, x.id = n ∧ x.defines (k.stored o) = true := by
    rw [hw]
    exact Iff.rfl
  have hn := k.numbers.nextId_ge
  rw [hdef, (k.embeds hg ht).unavoidable_iff]
  · refine forall_congr' fun b => imp_congr_right fun _ => forall_congr' fun p =>
      imp_congr_right fun _ => exists_congr fun a => and_congr_right fun _ => ?_
    constructor
    · intro hP
      obtain ⟨b, hb, he, hd⟩ := hat _ hP
      exact ⟨b, hb, (Nat.add_left_cancel he).symm, hd⟩
    · rintro ⟨b, hb, rfl, hd⟩
      refine ⟨k.finish g b, ?_, k.finish_id g b, (k.defines_stored hg herase ho hst hhead hb).mpr hd⟩
      rw [k.blocks_eq hg]
      exact List.mem_append_right _ (List.mem_map_of_mem hb)
  · intro hP
    obtain ⟨b, hb, he, -⟩ := hat _ hP
    have h1 := (k.region_lt hb).1
    have h2 : k.n + 1 = M.nextId + b.id := he
    omega
  · intro hP
    obtain ⟨b, hb, he, -⟩ := hat _ hP
    have h1 := (k.region_lt hb).1
    have h2 : k.n + 2 = M.nextId + b.id := he
    omega

/- Scalar outputs of bidirectional inputs are scalar values of the region. -/
theorem Cloned.exitStores_iff (hacc : ∀ a ∈ ce.toFlatten, M.nextId > a)
    (ht : ∀ b ∈ M.region ce.blocks.elems, b.Terminated)
    (herase : eraseAll k.beforeErase (toRemove (k.functionWith rewriteBlock)) = some k.result)
    (hout : ∀ o ∈ ce.outputs, o.ty.isPointerTy = false → ∃ j t, ScalarOf M ce.blocks.elems o j t) :
    ExitStoresDefined k.newFunction ↔ OutputsUnavoidable M ce header := by
  have hexit : k.ctx.planExit (k.root.nextId + 1) = some k.exit := k.exit_eq
  have hmem : ∀ st ∈ (exitBlock k.ctx k.root k.exit k.vm).insts, st ∈ k.newFunction.insts :=
    fun st hst => k.mem_insts.mpr (.inr (.inl hst))
  constructor
  · intro hall v hv hvb i hi o ho hty
    obtain ⟨j, t, hsc⟩ := hout o (List.mem_of_getElem? ho) hty
    obtain ⟨outv, arg, hov, hstore⟩ := planExit_stored hexit (k.mem_bidirectional.mpr ⟨hv, hvb⟩)
    have hidx : k.ctx.ce.outputs.elems[k.ctx.outputIndex v]? = some outv := (outputOf_spec hov).1
    have hoi : k.ctx.outputIndex v = i := hi
    rw [hoi] at hidx
    obtain rfl : o = outv := Option.some.inj (ho.symm.trans hidx)
    obtain ⟨s, hs, hop, hops⟩ := hstore hty
    have hsm : remapInstruction k.vm s ∈ (exitBlock k.ctx k.root k.exit k.vm).insts :=
      List.mem_append_left _ (List.mem_map_of_mem hs)
    have hhead : (remapInstruction k.vm s).operands.head? = some (k.stored o) := by
      simp only [remapInstruction, hops, List.map_cons, List.head?_cons]
      rfl
    have hdef := hall _ rfl _ rfl _ hsm hop _ hhead
    exact (k.stored_defined_iff hacc ht herase hsc (hmem _ hsm) (List.mem_of_mem_head? hhead)).mp hdef
  · intro hun entry hentry exit hex st hst hop w hw
    obtain rfl := Option.some.inj hentry
    obtain rfl := Option.some.inj hex
    rcases List.mem_append.mp hst with hm | hm
    · obtain ⟨s, hs, rfl⟩ := List.mem_map.mp hm
      obtain ⟨-, v, hv, o, arg, hov, hty, hops⟩ := planExit_stores hexit s hs
      obtain ⟨hidx, -⟩ := outputOf_spec hov
      obtain ⟨hvin, hvb⟩ := k.mem_bidirectional.mp hv
      obtain ⟨j, t, hsc⟩ := hout o (List.mem_of_getElem? hidx) hty
      have hhead : (remapInstruction k.vm s).operands.head? = some (k.stored o) := by
        simp only [remapInstruction, hops, List.map_cons, List.head?_cons]
        rfl
      obtain rfl : k.stored o = w := Option.some.inj (hhead.symm.trans hw)
      refine (k.stored_defined_iff hacc ht herase hsc (hmem _ hst) (List.mem_of_mem_head? hhead)).mpr ?_
      exact hun v hvin hvb _ rfl o hidx hty
    · rw [List.mem_singleton.mp hm] at hop
      cases hop

end Values

section Region
variable {ce₀ ce ce' : CodeExtractor} {M : Module}

/- No vector GEPs: a GEP starts from a pointer and computes one. -/
def GEPsFromPointers (M : Module) : Prop :=
  ∀ gep ∈ M.insts, gep.op = .getElementPtr → ∀ p ∈ gepPointer gep, p.ty.isPointerTy = true

def GEPsYieldPointers (M : Module) : Prop :=
  ∀ gep ∈ M.insts, gep.op = .getElementPtr → gep.ty.isPointerTy = true

/- An output that is no pointer is a scalar instruction of the region. -/
theorem SeverShape.scalarOf {N : Module} (h : SeverShape M N) (hM : M.WF) (hgep : GEPsFromPointers M)
    (hyield : GEPsYieldPointers M) (hp : ce₀.prepare M = some ce) (bs : List BlockId) {o : Value}
    (ho : o ∈ ce.outputs) (hty : o.ty.isPointerTy = false) : ∃ j t, ScalarOf N bs o j t := by
  have hout : o ∈ (ce₀.findAll M).outputs := prepare_outputs hp ▸ ho
  obtain ⟨i, hi, rfl⟩ : ∃ i ∈ M.insts, o = i.val := by
    rcases findAll_outputs hout with ⟨i, hi, rfl, -⟩ | ⟨gep, hgm, hpt⟩
    · exact ⟨i, regionInsts_sub hM.toIds hi, rfl⟩
    · obtain ⟨hreg, hop⟩ := globalGeps_mem M ce₀.blocks hgm
      have hptr := hgep gep (regionInsts_sub hM.toIds hreg) hop o hpt
      rw [hty] at hptr
      cases hptr
  have hlt := hM.insts_lt i hi
  refine ⟨i.id, i.ty, rfl, Nat.lt_of_lt_of_le hlt h.le, hty, ?_, ?_⟩
  · intro y hy hid
    rcases h.kin y (regionInsts_sub h.wf.toIds hy) with ⟨z, hz, he⟩ | ⟨hge, -⟩
    · obtain rfl := inst_unique hM.toIds hz hi ((id_of_head he).trans hid)
      exact (ty_of_head he).symm
    · omega
  · intro y hy hop
    rcases h.kin y (regionInsts_sub h.wf.toIds hy) with ⟨z, hz, he⟩ | ⟨-, hop' | hop'⟩
    · rw [← ty_of_head he]
      exact hyield z hz ((op_of_head he).trans hop)
    · rw [hop'] at hop
      cases hop
    · rw [hop'] at hop
      cases hop

/- The exit block stores what is computed on every path to it exactly when no way through the
region avoids a scalar output that is written back. -/
theorem exitStoresDefined_iff {M' : Module} {f : FuncId} {acc : Option (List InstId)} {bbs : List BlockId}
    {iterInfo : Option IteratorInfo} {LBA : Option LoopBoundsAnalyzer} {DT : Option (BlockId → Bool)}
    {agg varArgs allocas flatten : Bool} (hM : M.WF) (hv : Verified M) (hgep : GEPsFromPointers M)
    (hyield : GEPsYieldPointers M)
    (h0 : codeExtractor M bbs iterInfo LBA DT agg varArgs allocas flatten = some ce₀)
    (hbs : ∀ b ∈ bbs, ∃ x ∈ M.blocks, x.id = b) (hp : ce₀.prepare M = some ce)
    (hacc : ∀ a ∈ acc.getD [], ∃ i ∈ M.insts, i.id = a)
    (h : cloneCodeRegion { ce with accesses := acc } M = some (ce', M', some f)) :
    ∃ (x : Extraction { ce with accesses := acc } M ce') (F : Function),
      M'.funcs.find? (fun g => g.id = f) = some F ∧
      (ExitStoresDefined F ↔ OutputsUnavoidable (splitReturnBlocks ce'.blocks x.severed) ce' x.header') := by
  have hexist := prepare_exist h0 hbs hp
  obtain ⟨x, rfl, rfl⟩ := cloneCodeRegion_extraction hM (by exact hexist) h
  refine ⟨x, x.cloned.newFunction, x.find_function, ?_⟩
  have hpad : HeaderNoPad M x.header := codeExtractor_noPad h0 (prepare_blocks hp ▸ x.header_head)
  have hshape := x.shape hM hv hpad
  refine x.cloned.exitStores_iff (x.toFlatten_lt hM hshape.le hacc)
    (fun b hb => hshape.terminated b ((mem_region hshape.wf.toIds).mp hb).1) x.erased fun o ho hty => ?_
  have ho' : o ∈ ce.outputs := by
    have hout : ce'.outputs = ce.outputs := x.from_.sets.outputs
    rwa [hout] at ho
  exact hshape.scalarOf hM hgep hyield hp _ ho' hty

end Region

theorem sumLoop_gepsFromPointers : GEPsFromPointers sumLoop := by
  unfold GEPsFromPointers
  decide

theorem exitStoresDefined_iff_sumLoop : ∃ ce ce' M' f, ∃ (x : Extraction ce sumLoop ce') (F : Function),
    cloneCodeRegion ce sumLoop = some (ce', M', some f) ∧ M'.funcs.find? (fun g => g.id = f) = some F ∧
    (ExitStoresDefined F ↔ OutputsUnavoidable (splitReturnBlocks ce'.blocks x.severed) ce' x.header') := by
  have hrun : sumReport.isSome = true := by decide
  obtain ⟨⟨ce, ce', M', f, F, ds⟩, hr⟩ := Option.isSome_iff_exists.mp hrun
  obtain ⟨hce, hclone, -, -⟩ := bodyReport_spec hr
  have hprep := hce
  unfold preparedExtractor at hprep
  obtain ⟨ce₀, h0, hp⟩ := Option.bind_eq_some_iff.mp hprep
  have hnone : (preparedExtractor sumArgs sumLoop sumInfo).all (fun ce => ce.accesses = none) = true := by
    decide
  rw [hce, Option.all_some, decide_eq_true_eq] at hnone
  have hacc : ∀ a ∈ ce.accesses.getD [], ∃ i ∈ sumLoop.insts, i.id = a := by
    rw [hnone]
    simp
  obtain ⟨x, F, hF, hiff⟩ := exitStoresDefined_iff sumLoop_wf sumLoop_verified sumLoop_gepsFromPointers
    (by unfold GEPsYieldPointers; decide) h0
    (fun b hb => sumLoop_loopBlocks.exist b (List.mem_filter.mp hb).1) hp hacc hclone
  exact ⟨ce, ce', M', f, x, F, hclone, hF, hiff⟩

/- `for (i = 0; i < n; ++i) { if (a[i] < 0) break; s += a[i]; }`, with the test and the sum in two
blocks. -/
def breakLoop : Module where
  funcs := [{ id := 9, params := [⟨"a", .ptr (.int 32) 0⟩, ⟨"n", .int 32⟩], isVarArg := false, blocks :=
    [⟨0, [Inst.uncondBr 20 1], false⟩,
     ⟨1, [⟨10, .phi, .int 32, [.const (.int 32 0), .inst 16 (.int 32)], [0, 4], []⟩,
          ⟨11, .phi, .int 32, [.const (.int 32 0), .inst 15 (.int 32)], [0, 4], []⟩,
          ⟨12, .other 0, .int 1, [.inst 10 (.int 32), .arg 9 1 (.int 32)], [], []⟩,
          ⟨21, .br, .void, [.inst 12 (.int 1)], [], [2, 5]⟩], false⟩,
     ⟨2, [⟨13, .getElementPtr, .ptr (.int 32) 0, [.arg 9 0 (.ptr (.int 32) 0), .inst 10 (.int 32)], [], []⟩,
          ⟨14, .load, .int 32, [.inst 13 (.ptr (.int 32) 0)], [], []⟩,
          ⟨17, .other 0, .int 1, [.inst 14 (.int 32), .const (.int 32 0)], [], []⟩,
          ⟨22, .br, .void, [.inst 17 (.int 1)], [], [5, 3]⟩], false⟩,
     ⟨3, [⟨15, .add, .int 32, [.inst 11 (.int 32), .inst 14 (.int 32)], [], []⟩,
          Inst.uncondBr 23 4], false⟩,
     ⟨4, [⟨16, .add, .int 32, [.inst 10 (.int 32), .const (.int 32 1)], [], []⟩,
          Inst.uncondBr 24 1], false⟩,
     ⟨5, [⟨25, .ret, .void, [.inst 11 (.int 32)], [], []⟩], false⟩] }]
  nextId := 30
  valueName := fun _ => ""
  initUsesBlockAddress := fun _ => false

def breakArgs : CloneLoopArgs := { sumArgs with selected := [2, 3], rpo := [1, 2, 3, 4] }

/- The extracted function of the loop with the break. -/
def breakFunction : Option Function := do
  let ce ← preparedExtractor breakArgs breakLoop sumInfo
  let (_, M, f) ← cloneCodeRegion ce breakLoop
  let f ← f
  M.funcs.find? fun F => F.id = f

/- The break leads to the store of a sum that the path has not computed. -/
theorem breakLoop_undefined : ∃ ce ce' M' f F, preparedExtractor breakArgs breakLoop sumInfo = some ce ∧
    cloneCodeRegion ce breakLoop = some (ce', M', some f) ∧
    M'.funcs.find? (fun g => g.id = f) = some F ∧ ¬ExitStoresDefined F := by
  have hshape : breakFunction.any (fun F => F.blocks.map (fun b => (b.id, b.succs, b.has 45)) =
      [(61, [32], false), (62, [], false), (32, [62, 33], false), (33, [62], true)] &&
      F.blocks[1]?.any fun b => b.insts.any fun i => i.op = .store &&
        i.operands.head? = some (.inst 45 (.int 32))) = true := by decide
  obtain ⟨F, hF, hany⟩ := (Option.any_eq_true _ _).mp hshape
  unfold breakFunction at hF
  obtain ⟨ce, hce, hF⟩ := Option.bind_eq_some_iff.mp hF
  obtain ⟨⟨ce', M', f⟩, hclone, hF⟩ := Option.bind_eq_some_iff.mp hF
  obtain ⟨f, rfl, hF⟩ := Option.bind_eq_some_iff.mp hF
  refine ⟨ce, ce', M', f, F, hce, hclone, hF, fun hdef => ?_⟩
  rw [Bool.and_eq_true, decide_eq_true_eq] at hany
  obtain ⟨hblocks, hstore⟩ := hany
  obtain ⟨exit, hexit, hst⟩ := (Option.any_eq_true _ _).mp hstore
  obtain ⟨st, hst, hop⟩ := List.any_eq_true.mp hst
  rw [Bool.and_eq_true, decide_eq_true_eq, decide_eq_true_eq] at hop
  -- the blocks of the function by number, successors and whether they add
  have hrow : ∀ r ∈ [((61 : Nat), [(32 : Nat)], false), (62, [], false), (32, [62, 33], false),
      (33, [62], true)], ∃ b ∈ F.blocks, (b.id, b.succs, b.has 45) = r := by
    intro r hr
    rw [← hblocks] at hr
    exact List.mem_map.mp hr
  have hedge : ∀ a s d, (a, s, d) ∈ [((61 : Nat), [(32 : Nat)], false), (62, [], false), (32, [62, 33], false),
      (33, [62], true)] → ∀ b ∈ s, F.Edge a b := by
    intro a s d hr b hb
    obtain ⟨x, hx, he⟩ := hrow _ hr
    simp only [Prod.mk.injEq] at he
    exact ⟨x, hx, he.1, by rw [he.2.1]; exact hb⟩
  obtain ⟨entry, hentry⟩ : ∃ entry, F.blocks.head? = some entry ∧ entry.id = 61 ∧ exit.id = 62 := by
    cases hF' : F.blocks with
    | nil => rw [hF'] at hblocks; cases hblocks
    | cons b bs =>
      rw [hF'] at hblocks hexit
      cases bs with
      | nil => cases hexit
      | cons c cs =>
        cases hexit
        simp only [List.map_cons, List.cons.injEq, Prod.mk.injEq] at hblocks
        exact ⟨b, rfl, hblocks.1.1, hblocks.2.1.1⟩
  have hpath : Path F.Edge 61 [61, 32, 62] 62 :=
    .cons 61 32 62 [32, 62] (hedge 61 [32] false (by decide) 32 (by decide))
      (.cons 32 62 62 [62] (hedge 32 [62, 33] false (by decide) 62 (by decide)) (.single 62))
  have hun := hdef entry hentry.1 exit hexit st hst hop.1 _ hop.2
  rw [hentry.2.1, hentry.2.2] at hun
  obtain ⟨n, hn, x, hx, hid, hd⟩ := hun [61, 32, 62] hpath
  have hx' : (x.id, x.succs, x.has 45) ∈ F.blocks.map fun b => (b.id, b.succs, b.has 45) :=
    List.mem_map_of_mem hx
  have hd' : x.has 45 = true := hd
  rw [hblocks, hd', hid] at hx'
  simp only [List.mem_cons, Prod.mk.injEq, List.not_mem_nil, or_false, Bool.true_eq_false, and_false,
    false_or, and_true] at hx'
  rw [hx'.1] at hn
  revert hn
  decide

end Atrox
