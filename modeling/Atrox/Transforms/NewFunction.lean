import Atrox.Transforms.CloneShape
import Atrox.Transforms.EntryLoads

/-!
# Instructions of the new function

Every instruction is one of the root, one of the exit, or a rewritten clone. Up to the
incoming blocks of PHIs the rewriting is instruction by instruction.
-/

namespace Atrox
open IR Lib

theorem redirectHeaderPHIs_core (inNew : BlockId → Bool) (root : BlockId) (b : Block) :
    (redirectHeaderPHIs inNew root b).insts.map Inst.core = b.insts.map Inst.core := by
  simp only [redirectHeaderPHIs, List.map_append, List.map_map]
  conv_rhs => rw [← List.takeWhile_append_dropWhile (p := Inst.isPHI) (l := b.insts), List.map_append]
  rfl

section Blocks
variable (c : CloneCtx) (σ : List (Value × Value)) (vm : ValueMap) (cloneHeader : BlockId)

theorem rewriteBlock_core (b : Block) :
    (rewriteBlock c σ vm cloneHeader b).insts.map Inst.core =
      b.insts.map fun i => (rewriteInst c σ vm i).core := by
  have hmap : (b.mapInsts (rewriteInst c σ vm)).insts.map Inst.core =
      b.insts.map fun i => (rewriteInst c σ vm i).core := by
    simp only [Block.mapInsts, List.map_map]
    rfl
  unfold rewriteBlock
  dsimp only
  split
  · rw [redirectHeaderPHIs_core, hmap]
  · exact hmap

theorem ignored_core (i : Inst) : isIgnoredIntrinsic i.core = isIgnoredIntrinsic i := rfl

theorem finishBlock_core (b : Block) :
    (finishBlock c σ vm cloneHeader b).insts.map Inst.core =
      (b.insts.filter fun i => !isIgnoredIntrinsic i).map fun i => (rewriteInst c σ vm i).core := by
  have h := congrArg (List.filter fun i => !isIgnoredIntrinsic i) (rewriteBlock_core c σ vm cloneHeader b)
  rw [List.filter_map, List.filter_map] at h
  exact h

theorem finishBlock_mem {b : Block} {i' : Inst} (h : i' ∈ (finishBlock c σ vm cloneHeader b).insts) :
    ∃ i ∈ b.insts, isIgnoredIntrinsic i = false ∧ i'.core = (rewriteInst c σ vm i).core := by
  have hm : i'.core ∈ (finishBlock c σ vm cloneHeader b).insts.map Inst.core := List.mem_map_of_mem h
  rw [finishBlock_core] at hm
  obtain ⟨i, hi, he⟩ := List.mem_map.mp hm
  obtain ⟨hi, hig⟩ := List.mem_filter.mp hi
  exact ⟨i, hi, by simpa using hig, he.symm⟩

theorem finishBlock_of_mem {b : Block} {i : Inst} (h : i ∈ b.insts) (hig : isIgnoredIntrinsic i = false) :
    ∃ i' ∈ (finishBlock c σ vm cloneHeader b).insts, i'.core = (rewriteInst c σ vm i).core := by
  have hm : (rewriteInst c σ vm i).core ∈ (finishBlock c σ vm cloneHeader b).insts.map Inst.core := by
    rw [finishBlock_core]
    exact List.mem_map_of_mem (List.mem_filter.mpr ⟨h, by simp [hig]⟩)
  obtain ⟨i', hi', he⟩ := List.mem_map.mp hm
  exact ⟨i', hi', he⟩

theorem finishBlock_id (b : Block) : (finishBlock c σ vm cloneHeader b).id = b.id :=
  rewriteBlock_id c σ vm cloneHeader b

end Blocks

section Values
variable {ce : CodeExtractor} {M : Module} {header : BlockId} {old : Function}
  (k : Cloned ce M header old)

theorem Cloned.mem_insts {i : Inst} : i ∈ k.newFunction.insts ↔
    i ∈ (rootBlock k.ctx k.root (M.nextId + header)).insts ∨
    i ∈ (exitBlock k.ctx k.root k.exit k.vm).insts ∨
    ∃ b ∈ k.clones, i ∈ (finishBlock k.ctx k.root.subst k.vm (M.nextId + header) b).insts := by
  simp only [Cloned.newFunction, Cloned.functionWith, Function.insts, List.flatMap_append,
    List.flatMap_cons, List.flatMap_nil, List.append_nil, List.mem_append, List.mem_flatMap,
    List.mem_map, or_assoc]
  constructor
  · rintro (h | h | ⟨-, ⟨b, hb, rfl⟩, hi⟩)
    · exact .inl h
    · exact .inr (.inl h)
    · exact .inr (.inr ⟨b, hb, hi⟩)
  · rintro (h | h | ⟨b, hb, hi⟩)
    · exact .inl h
    · exact .inr (.inl h)
    · exact .inr (.inr ⟨_, ⟨b, hb, rfl⟩, hi⟩)

/- `VMap` holds the instructions of the region and nothing else. -/
theorem Cloned.vm_isSome {v : Value} :
    (k.vm.val v).isSome = true ↔ definedInRegion M ce.blocks v = true := by
  rw [k.numbers.val_dom v]
  cases v with
  | inst i t =>
    simp only [cloneMap, definedInRegion]
    split
    · next h => simp [h]
    · next h => simp [h]
  | const _ => simp [cloneMap, definedInRegion]
  | func _ => simp [cloneMap, definedInRegion]
  | global _ _ _ => simp [cloneMap, definedInRegion]
  | arg _ _ _ => simp [cloneMap, definedInRegion]

theorem Cloned.vm_arg (f : FuncId) (i : Nat) (t : Ty) : k.vm.val (.arg f i t) = none := by
  have h := k.vm_isSome (v := .arg f i t)
  cases hv : k.vm.val (.arg f i t) with
  | none => rfl
  | some w =>
    rw [hv] at h
    exact absurd (h.mp rfl) (by simp [definedInRegion])

end Values

section Clones
variable {ce : CodeExtractor} {M : Module} {header : BlockId} {old : Function}
  (k : Cloned ce M header old) {g : Inst → List Inst}

/- The clone of a block as the new function has it. -/
def Cloned.finish (g : Inst → List Inst) (b : Block) : Block :=
  finishBlock k.ctx k.root.subst k.vm (M.nextId + header) (expand M.nextId g b)

/- Where an edge of the region leads in the new function. -/
def Cloned.target (s : BlockId) : BlockId := if s ∈ ce.blocks then M.nextId + s else k.ctx.exit

theorem Cloned.finish_id (g : Inst → List Inst) (b : Block) : (k.finish g b).id = M.nextId + b.id :=
  finishBlock_id _ _ _ _ _

theorem Cloned.blocks_eq (hg : CloneShape M ce.blocks.elems ce.toFlatten k.clones k.vm g) :
    k.newFunction.blocks = [rootBlock k.ctx k.root (M.nextId + header),
      exitBlock k.ctx k.root k.exit k.vm] ++ (M.region ce.blocks.elems).map (k.finish g) := by
  have hclones : k.clones.map (finishBlock k.ctx k.root.subst k.vm (M.nextId + header)) =
      (M.region ce.blocks.elems).map (k.finish g) := by
    rw [hg.blocks, List.map_map]
    rfl
  rw [← hclones]
  rfl

theorem terminator_not_ignored {i : Inst} (h : i.op.isTerminator = true) : isIgnoredIntrinsic i = false := by
  cases hop : i.op with
  | call c r =>
    rw [hop] at h
    cases h
  | _ => simp [isIgnoredIntrinsic, Opcode.intrinsic?, hop]

/- Successors of a rewritten clone are led to clones or the exit. -/
theorem Cloned.rewrite_succs (x : Inst) :
    (rewriteInst k.ctx k.root.subst k.vm x).succs = x.succs.map k.target := by
  simp only [rewriteInst, remapInstruction, CloneCtx.divert, substInst, List.map_map]
  apply List.map_congr_left
  intro s _
  have hblock : k.vm.block = (cloneMap M ce.blocks.elems).block := k.numbers.block
  simp only [Function.comp_apply, Cloned.target, hblock, cloneMap]
  have hexit : k.ctx.exit ∉ ce.blocks.elems := by
    intro hm
    obtain ⟨y, hy, he⟩ := k.exist _ hm
    have h1 := k.wf.blocks_lt y hy
    have h2 := k.numbers.nextId_ge
    have h3 : y.id = k.n + 2 := he
    omega
  by_cases hs : s ∈ ce.blocks
  · have hs' : s ∈ ce.blocks.elems := hs
    have hc : s ∈ k.ctx.ce.blocks := hs
    rw [if_pos hc, if_pos hs', if_pos hs, Option.getD_some]
  · have hc : s ∉ k.ctx.ce.blocks := hs
    rw [if_neg hc, if_neg hexit, if_neg hs, Option.getD_none]

/- Successors of a clone are those of its block, led to clones or the exit. -/
theorem Cloned.finish_succs (hg : CloneShape M ce.blocks.elems ce.toFlatten k.clones k.vm g) {b : Block}
    (hb : b ∈ M.region ce.blocks.elems) (ht : b.Terminated) :
    (k.finish g b).succs = b.succs.map k.target := by
  obtain ⟨t, hlast, hop⟩ := ht
  obtain ⟨xs, hxs⟩ := List.getLast?_eq_some_iff.mp hlast
  have htm : t ∈ M.regionInsts ce.blocks.elems :=
    List.mem_flatMap.mpr ⟨b, hb, by simp [hxs]⟩
  obtain ⟨hj, -⟩ := (hg.piece t htm).of_not_gep (by
    rintro he
    rw [he] at hop
    cases hop)
  set j := cloneInst M.nextId t with hjdef
  have hjt : j.op.isTerminator = true := hop
  have hcore : (k.finish g b).terminator?.map Inst.core =
      some (rewriteInst k.ctx k.root.subst k.vm j).core := by
    rw [Block.terminator?, ← List.getLast?_map]
    have h := finishBlock_core k.ctx k.root.subst k.vm (M.nextId + header) (expand M.nextId g b)
    rw [show (k.finish g b).insts.map Inst.core = _ from h]
    simp only [expand, hxs, List.flatMap_append, List.flatMap_singleton, hj, List.filter_append,
      List.filter_singleton, terminator_not_ignored hjt, Bool.not_false, cond_true, List.map_append,
      List.map_singleton, List.getLast?_concat]
  obtain ⟨u, hu, hcu⟩ := Option.map_eq_some_iff.mp hcore
  have hsuccs : u.succs = (rewriteInst k.ctx k.root.subst k.vm j).succs := succs_of_core hcu
  have hbs : b.succs = t.succs := by
    rw [Block.succs, hlast]
    rfl
  rw [Block.succs, hu, hbs]
  simp only [Option.map_some, Option.getD_some, hsuccs, k.rewrite_succs]
  rfl

include k in
theorem Cloned.region_lt {b : Block} (hb : b ∈ M.region ce.blocks.elems) :
    b.id < M.nextId ∧ b.id ∈ ce.blocks :=
  ⟨k.wf.blocks_lt b ((mem_region k.wf.toIds).mp hb).1, ((mem_region k.wf.toIds).mp hb).2⟩

/- A block of the new function with a number below the counter of the clones. -/
theorem Cloned.block_inv (hg : CloneShape M ce.blocks.elems ce.toFlatten k.clones k.vm g) {x : Block}
    (hx : x ∈ k.newFunction.blocks) :
    x = rootBlock k.ctx k.root (M.nextId + header) ∨ x = exitBlock k.ctx k.root k.exit k.vm ∨
      ∃ b ∈ M.region ce.blocks.elems, x = k.finish g b := by
  rw [k.blocks_eq hg, List.mem_append, List.mem_map] at hx
  rcases hx with hx | ⟨b, hb, rfl⟩
  · simp only [List.mem_cons, List.not_mem_nil, or_false] at hx
    exact hx.imp_right .inl
  · exact .inr (.inr ⟨b, hb, rfl⟩)

theorem Cloned.clone_inv (hg : CloneShape M ce.blocks.elems ce.toFlatten k.clones k.vm g) {x : Block}
    (hx : x ∈ k.newFunction.blocks) {a : BlockId} (ha : a ∈ ce.blocks) (hid : x.id = M.nextId + a) :
    ∃ b ∈ M.region ce.blocks.elems, b.id = a ∧ x = k.finish g b := by
  have hn := k.numbers.nextId_ge
  obtain ⟨y, hy, hya⟩ := k.exist a ha
  have hlt := k.wf.blocks_lt y hy
  rcases k.block_inv hg hx with rfl | rfl | ⟨b, hb, rfl⟩
  · have : k.n + 1 = M.nextId + a := hid
    omega
  · have : k.n + 2 = M.nextId + a := hid
    omega
  · rw [k.finish_id] at hid
    exact ⟨b, hb, Nat.add_left_cancel hid, rfl⟩

theorem Cloned.root_succs : (rootBlock k.ctx k.root (M.nextId + header)).succs = [M.nextId + header] := by
  simp only [Block.succs, Block.terminator?, rootBlock, List.getLast?_concat]
  rfl

theorem Cloned.exit_succs : (exitBlock k.ctx k.root k.exit k.vm).succs = [] := by
  simp only [Block.succs, Block.terminator?, exitBlock, List.getLast?_concat]
  rfl

theorem rewriteInst_core_id {c : CloneCtx} {σ : List (Value × Value)} {vm : ValueMap} {u x : Inst}
    (h : u.core = (rewriteInst c σ vm x).core) : u.id = x.id := (id_of_core h).trans rfl

/- Erased instructions have no uses: an instruction of the clone that is used is still there. -/
theorem Cloned.has_finish (hg : CloneShape M ce.blocks.elems ce.toFlatten k.clones k.vm g)
    (herase : eraseAll k.beforeErase (toRemove (k.functionWith rewriteBlock)) = some k.result)
    {b : Block} (hb : b ∈ M.region ce.blocks.elems) {x : Inst} (hx : x ∈ (expand M.nextId g b).insts)
    {st : Inst} (hst : st ∈ k.newFunction.insts) (huse : st.uses x.id = true) :
    (k.finish g b).has x.id = true := by
  cases hig : isIgnoredIntrinsic x with
  | false =>
    obtain ⟨u, hu, hcore⟩ := finishBlock_of_mem k.ctx k.root.subst k.vm (M.nextId + header) hx hig
    have hux := rewriteInst_core_id hcore
    refine List.any_eq_true.mpr ⟨u, hu, ?_⟩
    simp only [decide_eq_true_eq]
    omega
  | true =>
    have hrem : x.id ∈ toRemove (k.functionWith rewriteBlock) := by
      rw [toRemove_spec _ k.root_eq rfl k.exit_eq (M.nextId + header) rfl]
      let c := rewriteBlock k.ctx k.root.subst k.vm (M.nextId + header)
      have hm : (rewriteInst k.ctx k.root.subst k.vm x).core ∈
          (c (expand M.nextId g b)).insts.map Inst.core := by
        rw [rewriteBlock_core]
        exact List.mem_map_of_mem hx
      obtain ⟨u, hu, hcore⟩ := List.mem_map.mp hm
      refine ⟨u, List.mem_flatMap.mpr ⟨c (expand M.nextId g b), List.mem_map_of_mem ?_, hu⟩, ?_, ?_⟩
      · rw [hg.blocks]
        exact List.mem_map_of_mem hb
      · rw [← ignored_core u, hcore, ignored_core]
        exact hig
      · exact rewriteInst_core_id hcore
    have hno := eraseAll_no_uses _ _ _ herase _ hrem st (by
      refine List.mem_flatMap.mpr ?_
      obtain ⟨y, hy, hsy⟩ := List.mem_flatMap.mp hst
      refine ⟨y, List.mem_flatMap.mpr ⟨k.newFunction, ?_, hy⟩, hsy⟩
      exact List.mem_append_right _ (List.mem_singleton_self _))
    rw [huse] at hno
    cases hno

theorem Cloned.finish_insts_ge (hg : CloneShape M ce.blocks.elems ce.toFlatten k.clones k.vm g) {b : Block}
    (hb : b ∈ M.region ce.blocks.elems) : ∀ u ∈ (k.finish g b).insts, M.nextId ≤ u.id := by
  intro u hu
  obtain ⟨x, hx, -, hcore⟩ := finishBlock_mem _ _ _ _ hu
  have hux := rewriteInst_core_id hcore
  rw [hux]
  refine k.numbers.insts_ge x (List.mem_flatMap.mpr ⟨expand M.nextId g b, ?_, hx⟩)
  rw [hg.blocks]
  exact List.mem_map_of_mem hb

end Clones

end Atrox
