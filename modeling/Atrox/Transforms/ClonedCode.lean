import Atrox.Transforms.EntryValues
import Atrox.Transforms.RegionCut

/-!
# The clones as a copy of the region

Without flattening every instruction of the region that is not ignored has one clone, in its
order. Together they are a copy of the region's code under new names.
-/

namespace Atrox
open IR Lib

section PHIs

/- In a block that starts with its PHIs, `redirectHeaderPHIs` rewrites every PHI. -/
theorem redirectHeaderPHIs_map (inNew : BlockId → Bool) (root : BlockId) {b : Block} (h : PhisFirst b.insts) :
    (redirectHeaderPHIs inNew root b).insts = b.insts.map fun i =>
      if i.isPHI then { i with incoming := i.incoming.map fun p => if inNew p then p else root } else i := by
  have hrest := (phisFirst_iff b.insts).mp h
  have hsplit := List.takeWhile_append_dropWhile (p := Inst.isPHI) (l := b.insts)
  unfold redirectHeaderPHIs
  conv_rhs => rw [← hsplit, List.map_append]
  dsimp only
  congr 1
  · apply List.map_congr_left
    intro i hi
    rw [if_pos (List.all_eq_true.mp List.all_takeWhile i hi)]
  · conv_lhs => rw [← List.map_id (b.insts.dropWhile Inst.isPHI)]
    apply List.map_congr_left
    intro i hi
    rw [hrest i hi]
    rfl

theorem phisFirst_map {f : Inst → Inst} (hf : ∀ i, (f i).isPHI = i.isPHI) {is : List Inst} (h : PhisFirst is) :
    PhisFirst (is.map f) := by
  rw [phisFirst_iff] at h ⊢
  have hcomp : Inst.isPHI ∘ f = Inst.isPHI := funext hf
  intro j hj
  rw [List.dropWhile_map, hcomp] at hj
  obtain ⟨i, hi, rfl⟩ := List.mem_map.mp hj
  rw [hf]
  exact h i hi

end PHIs

section Finished
variable {ce : CodeExtractor} {M : Module} {header : BlockId} {old : Function} (k : Cloned ce M header old)

/- Where an edge of the new function that stands for one from `q` comes from. -/
def Cloned.source (q : BlockId) : BlockId := if q ∈ ce.blocks then M.nextId + q else k.ctx.root

/- `u` is the clone of `j` in the new function. -/
def Cloned.Finished (j u : Inst) : Prop :=
  u.core = (rewriteInst k.ctx k.root.subst k.vm (cloneInst M.nextId j)).core ∧
    (j.isPHI = true → u.incoming = j.incoming.map k.source)

theorem Cloned.Finished.fields {k : Cloned ce M header old} {j u : Inst} (h : k.Finished j u) :
    u.id = M.nextId + j.id ∧ u.op = j.op ∧ u.ty = j.ty ∧ u.operands = j.operands.map k.image ∧
      u.succs = j.succs.map k.target := by
  obtain ⟨hid, hop, hty, -, hsuccs⟩ := fields_of_core h.1
  have hops := k.clone_operands h.1
  rw [k.rewrite_succs] at hsuccs
  exact ⟨hid, hop, hty, hops, hsuccs⟩

/- PHIs of the header may have edges from outside the region, those of other blocks none. -/
def EdgesIn (M : Module) (blocks : SetVector BlockId) (header : BlockId) (b : Block) : Prop :=
  ∀ i ∈ b.insts, i.isPHI = true → ∀ p ∈ i.incoming, M.nextId > p ∧ (b.id ≠ header → p ∈ blocks)

theorem Cloned.remap_source {p : BlockId} (h : p ∈ ce.blocks) : (k.vm.block p).getD p = k.source p := by
  have h' : p ∈ ce.blocks.elems := h
  simp only [k.numbers.block, cloneMap, if_pos h', Option.getD_some, Cloned.source, if_pos h]

/- The remapping and the redirection of an edge into the header. -/
theorem Cloned.redirect_source {p : BlockId} (hlt : M.nextId > p) :
    (if (k.vm.block p).getD p = k.ctx.root || (k.vm.block p).getD p = k.ctx.exit || (k.vm.block p).getD p ∈ k.ctx.clones
      then (k.vm.block p).getD p else k.ctx.root) = k.source p := by
  by_cases hp : p ∈ ce.blocks
  · have hm : k.source p ∈ k.ctx.clones := by
      rw [Cloned.source, if_pos hp]
      exact List.mem_map_of_mem hp
    rw [k.remap_source hp, if_pos (by simp [hm])]
  · have hp' : p ∉ ce.blocks.elems := hp
    have hn := k.numbers.nextId_ge
    have hroot : p ≠ k.ctx.root := by
      intro he
      have h : k.n + 1 = p := he.symm
      omega
    have hexit : p ≠ k.ctx.exit := by
      intro he
      have h : k.n + 2 = p := he.symm
      omega
    have hclones : p ∉ k.ctx.clones := by
      intro hm
      obtain ⟨q, -, he⟩ := List.mem_map.mp hm
      have hle : M.nextId ≤ M.nextId + q := Nat.le_add_right _ _
      rw [he] at hle
      exact Nat.lt_irrefl _ (Nat.lt_of_lt_of_le hlt hle)
    simp only [k.numbers.block, cloneMap, if_neg hp', Option.getD_none, Cloned.source, if_neg hp]
    rw [if_neg (by simp [hroot, hexit, hclones])]

/- Without accesses to flatten there are copies only. -/
theorem CloneShape.copies {bs : List BlockId} {cs : List Block} {vm : ValueMap} {g : Inst → List Inst}
    (hg : CloneShape M bs [] cs vm g) {i : Inst} (hi : i ∈ M.regionInsts bs) :
    g i = [cloneInst M.nextId i] ∧ vm.val i.val = some (cloneInst M.nextId i).val := by
  have hpiece := hg.piece i hi
  generalize g i = is at hpiece
  generalize vm.val i.val = v at hpiece
  cases hpiece with
  | copy => exact ⟨rfl, rfl⟩
  | flat base r idx n new hyes => simp [flattens] at hyes

/- The rewritten clone of a block, before ignored intrinsics are erased. -/
theorem Cloned.rewrite_insts {b : Block} (hfirst : PhisFirst b.insts) (hin : EdgesIn M ce.blocks header b) :
    List.Forall₂ k.Finished b.insts
      (rewriteBlock k.ctx k.root.subst k.vm (M.nextId + header) (cloneBasicBlock M.nextId b)).insts := by
  unfold rewriteBlock
  dsimp only
  split
  · have hfirst' : PhisFirst ((cloneBasicBlock M.nextId b).mapInsts
        (rewriteInst k.ctx k.root.subst k.vm)).insts :=
      phisFirst_map (f := rewriteInst k.ctx k.root.subst k.vm) (fun _ => rfl)
        (phisFirst_map (f := cloneInst M.nextId) (fun _ => rfl) hfirst)
    rw [redirectHeaderPHIs_map _ _ hfirst', Block.mapInsts, cloneBasicBlock, List.map_map, List.map_map,
      List.forall₂_map_right_iff, List.forall₂_same]
    intro i hi
    set x := rewriteInst k.ctx k.root.subst k.vm (cloneInst M.nextId i) with hx
    have hxphi : x.isPHI = i.isPHI := rfl
    dsimp only [Function.comp_apply]
    rw [← hx, hxphi]
    split
    · next hphi =>
      refine ⟨rfl, fun _ => ?_⟩
      have hinc : x.incoming = i.incoming.map fun p => (k.vm.block p).getD p := rfl
      dsimp only
      rw [hinc, List.map_map]
      apply List.map_congr_left
      intro p hp
      exact k.redirect_source (hin i hi hphi p hp).1
    · next hphi => exact ⟨rfl, fun h => absurd h hphi⟩
  · next hne =>
    rw [Block.mapInsts, cloneBasicBlock, List.map_map, List.forall₂_map_right_iff, List.forall₂_same]
    refine fun i hi => ⟨rfl, fun hphi => ?_⟩
    apply List.map_congr_left
    intro p hp
    have hid : b.id ≠ header := fun he => hne (congrArg (M.nextId + ·) he)
    exact k.remap_source ((hin i hi hphi p hp).2 hid)

theorem Cloned.finish_insts {g : Inst → List Inst} (hg : CloneShape M ce.blocks.elems [] k.clones k.vm g) {b : Block}
    (hb : b ∈ M.region ce.blocks.elems) (hfirst : PhisFirst b.insts) (hin : EdgesIn M ce.blocks header b) :
    Matching isIgnoredIntrinsic k.Finished b.insts (k.finish g b).insts := by
  have hcopy : expand M.nextId g b = cloneBasicBlock M.nextId b := by
    rw [expand, cloneBasicBlock, List.map_eq_flatMap]
    congr 1
    apply List.flatMap_congr
    intro i hi
    exact (hg.copies (List.mem_flatMap.mpr ⟨b, hb, hi⟩)).1
  have hall := k.rewrite_insts hfirst hin
  rw [← hcopy] at hall
  refine List.rel_filter (R := k.Finished) ?_ hall
  intro j u hju
  have hig : isIgnoredIntrinsic u = isIgnoredIntrinsic j := by
    have h := congrArg isIgnoredIntrinsic hju.1
    exact h
  simp only [hig]

theorem Cloned.block_ids {g : Inst → List Inst} (hg : CloneShape M ce.blocks.elems [] k.clones k.vm g) :
    ((M.region ce.blocks.elems).map (k.finish g)).map Block.id = ce.blocks.elems.map fun b => M.nextId + b := by
  have hids := k.numbers.ids
  rw [hg.blocks, List.map_map] at hids
  rw [← hids, List.map_map]
  exact List.map_congr_left fun b _ => k.finish_id g b

/- No two blocks of the new function have one number. -/
theorem Cloned.blocks_nodup {g : Inst → List Inst} (hflat : ce.toFlatten = [])
    (hg : CloneShape M ce.blocks.elems [] k.clones k.vm g) : (k.newFunction.blocks.map Block.id).Nodup := by
  have hn := k.numbers.nextId_ge
  have hinj : ((ce.blocks.elems).map fun b => M.nextId + b).Nodup :=
    ce.blocks.nodup.map fun a b h => Nat.add_left_cancel h
  have hlt : ∀ b ∈ ce.blocks.elems, M.nextId > b := by
    intro b hb
    obtain ⟨y, hy, rfl⟩ := k.exist b hb
    exact k.wf.blocks_lt y hy
  rw [k.blocks_eq (hflat ▸ hg), List.map_append, k.block_ids hg]
  refine List.Nodup.append ?_ hinj ?_
  · change [k.n + 1, k.n + 2].Nodup
    simp
  · intro x hx hm
    obtain ⟨b, hb, rfl⟩ := List.mem_map.mp hm
    have := hlt b hb
    change M.nextId + b ∈ [k.n + 1, k.n + 2] at hx
    simp only [List.mem_cons, List.not_mem_nil, or_false] at hx
    omega

/- The code of the new function up to its exit. -/
theorem Cloned.code_clone {g : Inst → List Inst} (hflat : ce.toFlatten = [])
    (hg : CloneShape M ce.blocks.elems [] k.clones k.vm g) {b : Block} (hb : b ∈ M.region ce.blocks.elems) :
    k.newFunction.codeUpTo k.ctx.exit (M.nextId + b.id) = some (k.finish g b).insts := by
  have hmem : k.finish g b ∈ k.newFunction.blocks := by
    rw [k.blocks_eq (hflat ▸ hg)]
    exact List.mem_append_right _ (List.mem_map_of_mem hb)
  have hfind := find?_of_nodup (k.blocks_nodup hflat hg) hmem
  have hlt := (k.region_lt hb).1
  have hn := k.numbers.nextId_ge
  have hne : M.nextId + b.id ≠ k.ctx.exit := by
    intro he
    have he' : M.nextId + b.id = k.n + 2 := he
    omega
  rw [k.finish_id] at hfind
  rw [Function.codeUpTo, if_neg hne, hfind, Option.map_some]

theorem Cloned.code_root {g : Inst → List Inst} (hflat : ce.toFlatten = [])
    (hg : CloneShape M ce.blocks.elems [] k.clones k.vm g) :
    k.newFunction.codeUpTo k.ctx.exit k.ctx.root = some (rootBlock k.ctx k.root (M.nextId + header)).insts := by
  have hmem : rootBlock k.ctx k.root (M.nextId + header) ∈ k.newFunction.blocks := by
    rw [k.blocks_eq (hflat ▸ hg)]
    simp
  have hfind := find?_of_nodup (k.blocks_nodup hflat hg) hmem
  have hne : k.ctx.root ≠ k.ctx.exit := Nat.ne_of_lt (Nat.lt_succ_self _)
  rw [Function.codeUpTo, if_neg hne]
  exact congrArg (Option.map Block.insts) hfind

end Finished

section Renaming
variable {ce ce' : CodeExtractor} {M N : Module} {header' : BlockId} {old : Function} (k : Cloned ce' N header' old)
  {ren : BlockId → BlockId}

/- The names of the region's values and blocks in the new function. -/
def Cloned.renaming (blocks : SetVector BlockId) (ren : BlockId → BlockId) : Renaming where
  value := k.image
  target := fun s => if s ∈ blocks then N.nextId + ren s else k.ctx.exit
  source := fun q => if q ∈ blocks then N.nextId + ren q else k.ctx.root
  exit := k.ctx.exit

/- The values the clones rely on: inputs, what belongs to no function, and what the region computes. -/
def Known (M : Module) (ce : CodeExtractor) (v : Value) : Prop :=
  v ∈ ce.inputs ∨ v.isModuleLevel = true ∨
    ∃ x ∈ M.regionInsts ce.blocks.elems, isIgnoredIntrinsic x = false ∧ x.op ≠ .ret ∧ v = x.val

theorem Recut.ignored {lo : Nat} {i j : Inst} (h : Recut ren lo i j) :
    isIgnoredIntrinsic j = isIgnoredIntrinsic i := by
  cases h with
  | keep hcore _ _ =>
    have h := congrArg isIgnoredIntrinsic hcore
    exact h
  | ret n hop _ he =>
    rw [he, terminator_not_ignored rfl, terminator_not_ignored (by rw [hop]; rfl)]

theorem RegionCut.source_eq {lo : Nat} (hcut : RegionCut M N ce ce' ren lo) {q : Block} (hq : q ∈ M.blocks) :
    k.source (ren q.id) = (k.renaming ce.blocks ren).source q.id := by
  have hmem := hcut.mem q hq
  simp only [Cloned.source, Cloned.renaming]
  by_cases h : q.id ∈ ce.blocks
  · rw [if_pos h, if_pos (hmem.mp h)]
  · rw [if_neg h, if_neg fun h' => h (hmem.mpr h')]

theorem RegionCut.target_eq {lo : Nat} (hcut : RegionCut M N ce ce' ren lo) (he : ValidEdges M) {p : Block}
    (hp : p ∈ M.blocks) {s : BlockId} (hs : s ∈ p.succs) :
    k.target s = (k.renaming ce.blocks ren).target s := by
  obtain ⟨c, hc, rfl⟩ := he.succ p hp s hs
  have hmem := hcut.mem c hc
  have hren := hcut.succ p hp c.id hs
  rw [hren] at hmem
  simp only [Cloned.target, Cloned.renaming, hren]
  by_cases h : c.id ∈ ce.blocks
  · rw [if_pos h, if_pos (hmem.mp h)]
  · rw [if_neg h, if_neg fun h' => h (hmem.mpr h')]

/- What the region computes is no input. -/
theorem PlainRegion.notMem_inputs (hp : PlainRegion M ce) (hM : M.WF) {i : Inst}
    (hi : i ∈ M.regionInsts ce.blocks.elems) : i.val ∉ ce.inputs := by
  intro hin
  rcases hp.inputs _ hin with h | h
  · cases h
  · have hdef : M.definedIn ce.blocks.elems i.id = true := (definedIn_iff hM.toIds).mpr ⟨i, hi, rfl⟩
    simp only [definedInCaller, Inst.val, hdef, Bool.not_true] at h
    cases h

theorem succs_of_terminator {b : Block} (hlast : ∀ i ∈ b.insts.dropLast, i.op.isTerminator = false) {i : Inst}
    (hi : i ∈ b.insts) (hop : i.op.isTerminator = true) : b.succs = i.succs := by
  obtain ⟨l, hl⟩ := List.getLast?_isSome.mpr (List.ne_nil_of_mem hi) |> Option.isSome_iff_exists.mp
  have hsplit := List.dropLast_concat_getLast (List.ne_nil_of_mem hi)
  have hget : b.insts.getLast (List.ne_nil_of_mem hi) = l := by
    rw [List.getLast?_eq_some_getLast (List.ne_nil_of_mem hi)] at hl
    exact Option.some.inj hl
  rw [← hsplit, hget] at hi
  rcases List.mem_append.mp hi with hm | hm
  · rw [hlast i hm] at hop
    cases hop
  · rw [List.mem_singleton.mp hm, Block.succs, Block.terminator?, hl]
    rfl

/- An instruction of the region and its clone. -/
theorem RegionCut.copied {lo : Nat} (hcut : RegionCut M N ce ce' ren lo) (hp : PlainRegion M ce) (hM : M.WF)
    (hv : Verified M) (he : ValidEdges M) (hu : ValidUses M) {b : Block} (hb : b ∈ M.region ce.blocks.elems)
    {i j u : Inst} (hi : i ∈ b.insts) (hij : Recut ren lo i j) (hju : k.Finished j u)
    (hval : k.vm.val j.val = some (cloneInst N.nextId j).val) : Copied (k.renaming ce.blocks ren) i u := by
  obtain ⟨hbm, -⟩ := (mem_region hM.toIds).mp hb
  obtain ⟨hid, hop, hty, hops, hsuccs⟩ := hju.fields
  cases hij with
  | ret n hret hn hj =>
    subst hj
    refine .ret hret (hv.ret i (List.mem_flatMap.mpr ⟨b, hbm, hi⟩) hret) hop hops ?_
    rw [hsuccs]
    simp only [Inst.uncondBr, List.map_cons, List.map_nil, Cloned.target, if_neg (hcut.fresh n hn)]
    rfl
  | keep hcore' hret hinc' =>
    obtain ⟨hid', hop', hty', hops', hsuccs'⟩ := fields_of_core hcore'
    have hjv : j.val = i.val := by rw [Inst.val, Inst.val, hid', hty']
    have hin : i.val ∉ ce'.inputs := by
      rw [hcut.sets]
      exact hp.notMem_inputs hM (List.mem_flatMap.mpr ⟨b, hb, hi⟩)
    have hslots : ∀ v ∈ ce'.stackAllocas, v ∈ ce'.inputs := by
      rw [hcut.sets]
      intro v hv
      rw [hp.slots] at hv
      exact absurd hv (SetVector.notMem_empty v)
    refine .same hret (hop.trans hop') (hty.trans hty') ?_ (hops.trans (by rw [hops']; rfl)) (fun hphi => ?_)
      fun hterm => ?_
    · change u.val = k.image i.val
      rw [Cloned.image, k.subst_other hslots hin, ← hjv, hval, Option.getD_some]
      rw [Inst.val, hid, hty]
      rfl
    · have hjphi : j.isPHI = true := by rw [Inst.isPHI, hop']; exact hphi
      rw [hju.2 hjphi, hinc' hphi, List.map_map]
      apply List.map_congr_left
      intro p hpi
      obtain ⟨q, hq, rfl, -⟩ := hv.incoming b hbm i hi hphi p hpi
      exact hcut.source_eq k hq
    · rw [hsuccs, hsuccs']
      apply List.map_congr_left
      intro s hs
      have hbs := succs_of_terminator (hu.last b hbm) hi hterm
      rw [← hbs] at hs
      exact hcut.target_eq k he hbm hs

end Renaming

section Copy
variable {ce ce' : CodeExtractor} {M N : Module} {header header' : BlockId} {old : Function}
  {ren : BlockId → BlockId} {lo : Nat} {g : Inst → List Inst} {k : Cloned ce' N header' old}

/- What a region and its clones are like when there is nothing to flatten and nothing to sever. -/
structure ClonedRegion (M : Module) (ce : CodeExtractor) (header : BlockId) (ren : BlockId → BlockId) (lo : Nat)
    (g : Inst → List Inst) (k : Cloned ce' N header' old) : Prop where
  wf : M.WF
  verified : Verified M
  edges : ValidEdges M
  uses : ValidUses M
  plain : PlainRegion M ce
  exist : ∀ b ∈ ce.blocks, ∃ x ∈ M.blocks, x.id = b
  entry : SingleEntry M ce.blocks header
  cut : RegionCut M N ce ce' ren lo
  moved : ren header = header'
  shape : CloneShape N ce'.blocks.elems [] k.clones k.vm g
  flat : ce'.toFlatten = []
  phisFirst : ∀ b ∈ N.blocks, PhisFirst b.insts
  erased : eraseAll k.beforeErase (toRemove (k.functionWith rewriteBlock)) = some k.result
  below : ∀ v ∈ ce.inputs, v.below N.nextId
  found : ∀ i ∈ M.regionInsts ce.blocks.elems, ∀ v ∈ i.operands, Available M ce v
  types : ∀ p ∈ k.root.subst, p.2.ty = p.1.ty

namespace ClonedRegion
variable (h : ClonedRegion M ce header ren lo g k)

include h

theorem slots : ∀ v ∈ ce'.stackAllocas, v ∈ ce'.inputs := by
  rw [h.cut.sets]
  intro v hv
  rw [h.plain.slots] at hv
  exact absurd hv (SetVector.notMem_empty v)

theorem inputs_eq : ce'.inputs = ce.inputs := by rw [h.cut.sets]

theorem ren_lt {b : Block} (hb : b ∈ M.blocks) : N.nextId > ren b.id := by
  obtain ⟨c, hc, hid, -⟩ := h.cut.block b hb
  rw [← hid]
  exact k.wf.blocks_lt c hc

/- The root is no clone. -/
theorem root_apart {b : Block} (hb : b ∈ M.blocks) : k.ctx.root ≠ N.nextId + ren b.id := by
  have hlt := h.ren_lt hb
  have hn := k.numbers.nextId_ge
  intro he
  have he' : k.n + 1 = N.nextId + ren b.id := he
  omega

/- The block of the severed region that stands for one of the region. -/
theorem recut {b : Block} (hb : b ∈ M.region ce.blocks.elems) : ∃ c ∈ N.region ce'.blocks.elems,
    c.id = ren b.id ∧ List.Forall₂ (Recut ren lo) b.insts c.insts ∧ EdgesIn N ce'.blocks header' c := by
  obtain ⟨hbm, hin⟩ := (mem_region h.wf.toIds).mp hb
  obtain ⟨c, hc, hid, hall⟩ := h.cut.block b hbm
  have hin' : c.id ∈ ce'.blocks := by
    rw [hid]
    exact (h.cut.mem b hbm).mp hin
  refine ⟨c, (mem_region k.wf.toIds).mpr ⟨hc, hin'⟩, hid, hall hin, ?_⟩
  intro j hj hphi p hp
  obtain ⟨i, hi, hij⟩ := forall₂_right (hall hin) j hj
  cases hij with
  | ret n _ _ he =>
    rw [he] at hphi
    cases hphi
  | keep hcore _ hinc =>
    have hiphi : i.isPHI = true := by
      rw [Inst.isPHI, ← op_of_core hcore]
      exact hphi
    rw [hinc hiphi] at hp
    obtain ⟨q, hq, rfl⟩ := List.mem_map.mp hp
    obtain ⟨x, hx, rfl, hsucc⟩ := h.verified.incoming b hbm i hi hiphi q hq
    refine ⟨h.ren_lt hx, fun hne => (h.cut.mem x hx).mp (h.entry b hbm hin ?_ x hx hsucc)⟩
    rintro rfl
    exact hne (hid.trans h.moved)

/- Instructions of the region that do not return have clones. -/
theorem vm_val {x : Inst} (hx : x ∈ M.regionInsts ce.blocks.elems) (hop : x.op ≠ .ret) :
    k.vm.val x.val = some (.inst (N.nextId + x.id) x.ty) := by
  obtain ⟨b, hb, hxb⟩ := List.mem_flatMap.mp hx
  obtain ⟨c, hc, -, hall, -⟩ := h.recut hb
  obtain ⟨j, hj, hij⟩ := forall₂_left hall x hxb
  have hval := (h.shape.copies (List.mem_flatMap.mpr ⟨c, hc, hj⟩)).2
  cases hij with
  | ret n hret => exact absurd hret hop
  | keep hcore _ _ =>
    obtain ⟨hid, -, hty, -, -⟩ := fields_of_core hcore
    have hjx : j.val = x.val := by rw [Inst.val, Inst.val, hid, hty]
    rw [← hjx, hval, Inst.val, cloneInst_id, hid]
    exact congrArg (fun t => some (Value.inst (N.nextId + x.id) t)) hty

theorem image_val {x : Inst} (hx : x ∈ M.regionInsts ce.blocks.elems) (hop : x.op ≠ .ret) :
    k.image x.val = .inst (N.nextId + x.id) x.ty := by
  have hin : x.val ∉ ce'.inputs := by
    rw [h.inputs_eq]
    exact h.plain.notMem_inputs h.wf hx
  rw [Cloned.image, k.subst_other h.slots hin, h.vm_val hx hop, Option.getD_some]

theorem image_moduleLevel {v : Value} (hin : v ∉ ce.inputs) (hm : v.isModuleLevel = true) : k.image v = v := by
  have hin' : v ∉ ce'.inputs := by
    rw [h.inputs_eq]
    exact hin
  exact k.image_of_undefined h.slots hin' (moduleLevel_undefined hm _)

/- What takes the place of an input has its type and is no clone. -/
theorem image_input {v : Value} (hin : v ∈ ce.inputs) : ∃ p ∈ k.root.subst, p.1 = v ∧ k.image v = p.2 ∧
    p.2.ty = v.ty ∧ k.root.Has k.ctx p.2 := by
  have hin' : v ∈ ce'.inputs := by
    rw [h.inputs_eq]
    exact hin
  have hbelow : ∀ v ∈ ce'.inputs, v.below N.nextId := by
    rw [h.inputs_eq]
    exact h.below
  obtain ⟨p, hp, rfl, he⟩ := k.subst_pair hbelow h.slots hin'
  have hhas := ((planRoot_has k.root_eq).2 p hp).2.1
  refine ⟨p, hp, rfl, ?_, h.types p hp, hhas⟩
  rw [Cloned.image, he, k.vm_none (k.has_undefined hhas), Option.getD_none]

/- Ignored intrinsics are erased, so no instruction of the new function uses the clone of one. -/
theorem ignored_unused {x : Inst} (hx : x ∈ M.regionInsts ce.blocks.elems) (hig : isIgnoredIntrinsic x = true)
    {u : Inst} (hu : u ∈ k.newFunction.insts) : u.uses (N.nextId + x.id) = false := by
  rw [Bool.eq_false_iff]
  intro huse
  obtain ⟨b, hb, hxb⟩ := List.mem_flatMap.mp hx
  obtain ⟨c, hc, -, hall, -⟩ := h.recut hb
  obtain ⟨y, hyc, hxy⟩ := forall₂_left hall x hxb
  have hyig : isIgnoredIntrinsic y = true := hxy.ignored.trans hig
  have hid : y.id = x.id := by
    cases hxy with
    | keep hcore _ _ => exact (fields_of_core hcore).1
    | ret n _ _ he =>
      rw [he, terminator_not_ignored rfl] at hyig
      cases hyig
  have hym : y ∈ N.regionInsts ce'.blocks.elems := List.mem_flatMap.mpr ⟨c, hc, hyc⟩
  have hshape := h.shape
  rw [← h.flat] at hshape
  have hcopy : cloneInst N.nextId y ∈ (expand N.nextId g c).insts := by
    refine List.mem_flatMap.mpr ⟨y, hyc, ?_⟩
    rw [(h.shape.copies hym).1]
    exact List.mem_singleton_self _
  rw [← hid] at huse
  obtain ⟨w, hw, hwy⟩ := List.any_eq_true.mp (k.has_finish hshape h.erased hc hcopy hu huse)
  obtain ⟨z, hz, hzig, hcore⟩ := finishBlock_mem _ _ _ _ hw
  obtain ⟨j, hj, hzj⟩ := List.mem_flatMap.mp hz
  have hjm : j ∈ N.regionInsts ce'.blocks.elems := List.mem_flatMap.mpr ⟨c, hc, hj⟩
  rw [(h.shape.copies hjm).1] at hzj
  obtain rfl := List.mem_singleton.mp hzj
  -- only `y` has that number, and it is ignored
  simp only [decide_eq_true_eq, rewriteInst_core_id hcore, cloneInst_id] at hwy
  have hjy : j = y := inst_unique k.wf.toIds (regionInsts_sub k.wf.toIds hjm) (regionInsts_sub k.wf.toIds hym)
    (Nat.add_left_cancel hwy)
  rw [hjy] at hzig
  exact absurd (hzig.symm.trans hyig) (by decide)

/- The block of the new function that stands for one of the region. -/
theorem block_clone {b : Block} (hb : b ∈ M.region ce.blocks.elems) : ∃ us,
    k.newFunction.codeUpTo k.ctx.exit (N.nextId + ren b.id) = some us ∧
      (∀ u ∈ us, u ∈ k.newFunction.insts) ∧
      Matching isIgnoredIntrinsic (Copied (k.renaming ce.blocks ren)) b.insts us := by
  obtain ⟨c, hc, hid, hall, hin⟩ := h.recut hb
  have hcode := k.code_clone h.flat h.shape hc
  rw [hid] at hcode
  have hshape := h.shape
  rw [← h.flat] at hshape
  refine ⟨_, hcode, fun u hu => k.finish_mem hshape hc hu, ?_⟩
  have hfinish := k.finish_insts h.shape hc (h.phisFirst c ((mem_region k.wf.toIds).mp hc).1) hin
  have hleft : List.Forall₂ (fun i j => i ∈ b.insts ∧ Recut ren lo i j) b.insts c.insts :=
    (List.forall₂_and_left _ _).mpr ⟨fun i hi => hi, hall⟩
  have hfilter := List.rel_filter (p := fun i => !isIgnoredIntrinsic i) (q := fun i => !isIgnoredIntrinsic i)
    (fun i j hij => by simp only [hij.2.ignored]) hleft
  have hright : List.Forall₂ (fun j u => j ∈ c.insts ∧ k.Finished j u)
      (c.insts.filter fun j => !isIgnoredIntrinsic j) (k.finish g c).insts :=
    (List.forall₂_and_left _ _).mpr ⟨fun j hj => List.mem_of_mem_filter hj, hfinish⟩
  refine forall₂_trans ?_ hfilter hright
  rintro i j u ⟨hi, hij⟩ ⟨hj, hju⟩
  have hval := (h.shape.copies (List.mem_flatMap.mpr ⟨c, hc, hj⟩)).2
  exact h.cut.copied k h.plain h.wf h.verified h.edges h.uses hb hi hij hju hval

omit h in
theorem regionCode_some (hM : M.WF) {bs : List BlockId} {n : BlockId} {is : List Inst}
    (hb : M.regionCode bs n = some is) : ∃ b ∈ M.region bs, b.id = n ∧ b.insts = is := by
  unfold Module.regionCode at hb
  split at hb
  · next hin =>
    obtain ⟨b, hfind, rfl⟩ := Option.map_eq_some_iff.mp hb
    obtain ⟨hbm, rfl⟩ := block?_some hfind
    exact ⟨b, (mem_region hM.toIds).mpr ⟨hbm, hin⟩, rfl, rfl⟩
  · cases hb

theorem regionCode_none {n : BlockId} (hb : M.regionCode ce.blocks.elems n = none) : n ∉ ce.blocks := by
  intro hin
  obtain ⟨x, hx, rfl⟩ := h.exist n hin
  have hin' : x.id ∈ ce.blocks.elems := hin
  rw [Module.regionCode, if_pos hin', block?_mem h.wf.toIds hx] at hb
  cases hb

/- What an instruction of the region other than a return uses is known, and its name keeps the type. -/
theorem operand_known {i : Inst} (hi : i ∈ M.regionInsts ce.blocks.elems) (hig : isIgnoredIntrinsic i = false)
    (hop : i.op ≠ .ret) {v : Value} (hv : v ∈ i.operands) : Known M ce v ∧ (k.image v).ty = v.ty := by
  by_cases hin : v ∈ ce.inputs
  · obtain ⟨p, -, -, himg, hty, -⟩ := h.image_input hin
    rw [himg]
    exact ⟨.inl hin, hty⟩
  rcases h.found i hi v hv with hm | hm | hm
  · rw [h.image_moduleLevel hin hm]
    exact ⟨.inr (.inl hm), rfl⟩
  · exact absurd hm hin
  · cases v with
    | inst j t =>
      obtain ⟨x, hx, rfl⟩ := (definedIn_iff h.wf.toIds).mp hm
      obtain ⟨hval, hxop⟩ := h.uses.use i (regionInsts_sub h.wf.toIds hi) _ hv x (regionInsts_sub h.wf.toIds hx)
        (by simp [Value.isInst])
      rw [hval, h.image_val hx hxop]
      refine ⟨.inr (.inr ⟨x, hx, ?_, hxop, rfl⟩), rfl⟩
      -- the clone of `i` uses the clone of `x`
      rw [Bool.eq_false_iff]
      intro hxig
      obtain ⟨b, hb, hib⟩ := List.mem_flatMap.mp hi
      obtain ⟨us, -, hsub, hmatch⟩ := h.block_clone hb
      obtain ⟨u, hu, hcopy⟩ := forall₂_left hmatch i (List.mem_filter.mpr ⟨hib, by simp [hig]⟩)
      have huse : u.uses (N.nextId + x.id) = true := by
        cases hcopy with
        | ret hret => exact absurd hret hop
        | same _ _ _ _ hops =>
          refine List.any_eq_true.mpr ⟨k.image x.val, ?_, ?_⟩
          · rw [hops, ← hval]
            exact List.mem_map_of_mem hv
          · rw [h.image_val hx hxop]
            simp [Value.isInst]
      exact absurd (huse.symm.trans (h.ignored_unused hx hxig (hsub u hu))) (by decide)
    | _ => cases hm

/- A known value with the name of what `i` computes is what `i` computes. -/
theorem image_apart {i : Inst} (hi : i ∈ M.regionInsts ce.blocks.elems) (hop : i.op ≠ .ret) {v : Value}
    (hv : Known M ce v) (he : k.image v = k.image i.val) : v = i.val := by
  rw [h.image_val hi hop] at he
  by_cases hin : v ∈ ce.inputs
  · -- what stands for inputs is older than the clones or numbered behind them
    exfalso
    obtain ⟨p, -, -, himg, -, hhas⟩ := h.image_input hin
    rw [himg] at he
    have hn := k.numbers.nextId_ge
    have hlt := h.wf.insts_lt i (regionInsts_sub h.wf.toIds hi)
    have hle := h.cut.le
    rcases hhas with ⟨c, hc⟩ | ⟨n, t, -, hc⟩ | ⟨y, hy, hc⟩
    · rw [hc] at he
      cases he
    · rw [hc] at he
      cases he
    · rw [hc] at he
      obtain ⟨hid, -⟩ := Value.inst.inj he
      have hid' : N.nextId + i.id = y.id := hid.symm
      have hge := (planRoot_from k.root_eq).2 y hy
      omega
  · rcases hv with hv | hm | ⟨x, hx, -, hxop, rfl⟩
    · exact absurd hv hin
    · rw [h.image_moduleLevel hin hm] at he
      rw [he] at hm
      cases hm
    · rw [h.image_val hx hxop] at he
      obtain ⟨hid, -⟩ := Value.inst.inj he
      rw [inst_unique h.wf.toIds (regionInsts_sub h.wf.toIds hx) (regionInsts_sub h.wf.toIds hi)
        (Nat.add_left_cancel hid)]

theorem known_of_ignored {i : Inst} (hi : i ∈ M.regionInsts ce.blocks.elems) (hig : isIgnoredIntrinsic i = true) :
    ¬Known M ce i.val := by
  rintro (hin | hm | ⟨x, hx, hxig, -, he⟩)
  · exact h.plain.notMem_inputs h.wf hi hin
  · cases hm
  · obtain ⟨hid, -⟩ := Value.inst.inj he
    obtain rfl := inst_unique h.wf.toIds (regionInsts_sub h.wf.toIds hi) (regionInsts_sub h.wf.toIds hx) hid
    exact absurd (hxig.symm.trans hig) (by decide)

/-- The new function has a copy of the region. -/
theorem copyOf : CopyOf (M.regionCode ce.blocks.elems) (k.newFunction.codeUpTo k.ctx.exit)
    (k.renaming ce.blocks ren) isIgnoredIntrinsic (Known M ce) where
  block := by
    intro n is hn
    obtain ⟨b, hb, rfl, rfl⟩ := regionCode_some h.wf hn
    obtain ⟨us, hus, -, hmatch⟩ := h.block_clone hb
    refine ⟨us, ?_, hmatch⟩
    have hin : b.id ∈ ce.blocks := ((mem_region h.wf.toIds).mp hb).2
    simp only [Cloned.renaming, if_pos hin]
    exact hus
  outside := by
    intro n hn
    simp only [Cloned.renaming, if_neg (h.regionCode_none hn), Function.codeUpTo, if_true]
  exit := if_pos rfl
  source := by
    intro n is hn
    obtain ⟨b, hb, rfl, -⟩ := regionCode_some h.wf hn
    have hin : b.id ∈ ce.blocks := ((mem_region h.wf.toIds).mp hb).2
    simp only [Cloned.renaming, if_pos hin]
  edges := by
    intro n is m js hn hm i hi hphi q hq he
    obtain ⟨b, hb, rfl, rfl⟩ := regionCode_some h.wf hn
    obtain ⟨p, hp, rfl, -⟩ := regionCode_some h.wf hm
    obtain ⟨hpm, hpin⟩ := (mem_region h.wf.toIds).mp hp
    obtain ⟨x, hx, rfl, -⟩ := h.verified.incoming b ((mem_region h.wf.toIds).mp hb).1 i hi hphi q hq
    have hpin' : p.id ∈ ce.blocks := hpin
    simp only [Cloned.renaming, if_pos hpin'] at he
    split at he
    · exact h.cut.inj x hx p hpm (Nat.add_left_cancel he)
    · exact absurd he (h.root_apart hpm)
  operands := by
    intro n is hn i hi hig hop v hv
    obtain ⟨b, hb, -, rfl⟩ := regionCode_some h.wf hn
    exact h.operand_known (List.mem_flatMap.mpr ⟨b, hb, hi⟩) hig hop hv
  hidden := by
    intro n is hn i hi hig
    obtain ⟨b, hb, -, rfl⟩ := regionCode_some h.wf hn
    refine ⟨h.known_of_ignored (List.mem_flatMap.mpr ⟨b, hb, hi⟩) hig, ?_⟩
    cases hop : i.op with
    | call c r => exact ⟨c, r, rfl⟩
    | _ => simp [isIgnoredIntrinsic, Opcode.intrinsic?, hop] at hig
  apart := by
    intro n is hn i hi _ hop v hv he
    obtain ⟨b, hb, -, rfl⟩ := regionCode_some h.wf hn
    exact h.image_apart (List.mem_flatMap.mpr ⟨b, hb, hi⟩) hop hv he

end ClonedRegion

end Copy

end Atrox
