import Mathlib.Data.List.Lattice
import Mathlib.Data.List.Pairwise
import Atrox.IR.Syntax

/-!
# Edits of LLVM objects

`SplitBlock`, `CloneBasicBlock` and `RemapInstruction` as the LLVM utilities
perform them. A fresh object takes its number from `nextId` on.
-/

namespace Atrox.IR

/-- The part of an instruction that no edit of PHI edges touches. -/
def Inst.core (i : Inst) : Inst := { i with incoming := [] }

@[simp] theorem core_id (i : Inst) : i.core.id = i.id := rfl
@[simp] theorem core_op (i : Inst) : i.core.op = i.op := rfl
@[simp] theorem core_ty (i : Inst) : i.core.ty = i.ty := rfl
@[simp] theorem core_operands (i : Inst) : i.core.operands = i.operands := rfl
@[simp] theorem core_succs (i : Inst) : i.core.succs = i.succs := rfl
@[simp] theorem core_isPHI (i : Inst) : i.core.isPHI = i.isPHI := rfl
@[simp] theorem core_isUncondBr (i : Inst) : i.core.isUncondBr = i.isUncondBr := rfl
@[simp] theorem core_core (i : Inst) : i.core.core = i.core := rfl

/- Instructions that differ at most in their incoming blocks. -/
theorem fields_of_core {i j : Inst} (h : i.core = j.core) :
    i.id = j.id ∧ i.op = j.op ∧ i.ty = j.ty ∧ i.operands = j.operands ∧ i.succs = j.succs := by
  cases i
  cases j
  cases h
  exact ⟨rfl, rfl, rfl, rfl, rfl⟩

theorem id_of_core {i j : Inst} (h : i.core = j.core) : i.id = j.id := (fields_of_core h).1

theorem op_of_core {i j : Inst} (h : i.core = j.core) : i.op = j.op := (fields_of_core h).2.1

theorem operands_of_core {i j : Inst} (h : i.core = j.core) : i.operands = j.operands :=
  (fields_of_core h).2.2.2.1

theorem succs_of_core {i j : Inst} (h : i.core = j.core) : i.succs = j.succs := (fields_of_core h).2.2.2.2

theorem isPHI_of_core {i j : Inst} (h : i.core = j.core) : i.isPHI = j.isPHI := by
  rw [Inst.isPHI, Inst.isPHI, op_of_core h]

theorem mem_of_core {is js : List Inst} (h : js.map Inst.core = is.map Inst.core) {i : Inst} (hi : i ∈ is) :
    ∃ j ∈ js, j.core = i.core :=
  List.mem_map.mp (h ▸ List.mem_map_of_mem hi)

theorem dropLast_core {is js : List Inst} (h : js.map Inst.core = is.map Inst.core) :
    js.dropLast.map Inst.core = is.dropLast.map Inst.core := by
  rw [List.map_dropLast, List.map_dropLast, h]

/-- Numbers name one object each, and `nextId` is above them all. -/
structure Module.Ids (M : Module) : Prop where
  blocks_nodup : (M.blocks.map Block.id).Nodup
  insts_nodup : (M.insts.map Inst.id).Nodup
  blocks_lt : ∀ b ∈ M.blocks, b.id < M.nextId
  insts_lt : ∀ i ∈ M.insts, i.id < M.nextId

/-- A module: numbers as in `Ids`, functions too, and operands name what there is. -/
structure Module.WF (M : Module) : Prop extends M.Ids where
  funcs_nodup : (M.funcs.map Function.id).Nodup
  funcs_lt : ∀ f ∈ M.funcs, f.id < M.nextId
  operands_below : ∀ i ∈ M.insts, ∀ v ∈ i.operands, v.below M.nextId

theorem Module.WF.operands_lt {M : Module} (hM : M.WF) :
    ∀ i ∈ M.insts, ∀ j t, Value.inst j t ∈ i.operands → M.nextId > j :=
  fun i hi _ _ hv => hM.operands_below i hi _ hv

/- An instruction is in one block. -/
theorem block_unique {M : Module} (hM : M.Ids) {a b : Block} (ha : a ∈ M.blocks) (hb : b ∈ M.blocks)
    {i : Inst} (hia : i ∈ a.insts) (hib : i ∈ b.insts) : a = b := by
  have hnd : (M.blocks.flatMap Block.insts).Nodup := List.Nodup.of_map _ hM.insts_nodup
  obtain ⟨-, hdis⟩ := List.nodup_flatMap.mp hnd
  have hsymm : Std.Symm (Function.onFun List.Disjoint Block.insts) := ⟨fun _ _ h => h.symm⟩
  by_contra hne
  exact hdis.forall ha hb hne hia hib

theorem block_insts_nodup {M : Module} (hM : M.Ids) {b : Block} (hb : b ∈ M.blocks) :
    (b.insts.map Inst.id).Nodup := by
  have hs : List.Sublist b.insts M.insts := by
    rw [Module.insts, List.flatMap_def]
    exact List.sublist_flatten_of_mem (List.mem_map_of_mem hb)
  exact (hs.map Inst.id).nodup hM.insts_nodup

theorem find?_of_nodup {bs : List Block} (hnd : (bs.map Block.id).Nodup) {b : Block} (hb : b ∈ bs) :
    bs.find? (fun x => x.id = b.id) = some b := by
  obtain ⟨pre, post, rfl⟩ := List.append_of_mem hb
  rw [List.map_append, List.map_cons, List.nodup_append] at hnd
  rw [List.find?_append, List.find?_eq_none.mpr]
  · simp
  · intro x hx
    simpa using hnd.2.2 x.id (List.mem_map_of_mem hx) b.id (List.mem_cons_self ..)

theorem block?_of_nodup {M : Module} (hnd : (M.blocks.map Block.id).Nodup) {b : Block}
    (hb : b ∈ M.blocks) : M.block? b.id = some b := find?_of_nodup hnd hb

theorem block?_mem {M : Module} (hM : M.Ids) {b : Block} (hb : b ∈ M.blocks) :
    M.block? b.id = some b := block?_of_nodup hM.blocks_nodup hb

theorem block?_some {M : Module} {n : BlockId} {b : Block} (h : M.block? n = some b) :
    b ∈ M.blocks ∧ b.id = n :=
  ⟨List.mem_of_find?_eq_some h, by simpa using List.find?_some h⟩

theorem inst?_id {M : Module} {n : InstId} {i : Inst} (h : M.inst? n = some i) : i.id = n := by
  have hp := List.find?_some h
  simpa using hp

theorem inst?_mem {M : Module} {n : InstId} {i : Inst} (h : M.inst? n = some i) : i ∈ M.insts :=
  List.mem_of_find?_eq_some h

theorem inst_unique {M : Module} (hM : M.Ids) {i j : Inst} (hi : i ∈ M.insts) (hj : j ∈ M.insts)
    (h : i.id = j.id) : i = j :=
  List.inj_on_of_nodup_map hM.insts_nodup hi hj h

theorem inst?_of_mem {M : Module} (hM : M.Ids) {i : Inst} (hi : i ∈ M.insts) : M.inst? i.id = some i := by
  have hsome : (M.inst? i.id).isSome = true := List.find?_isSome.mpr ⟨i, hi, by simp⟩
  obtain ⟨j, hj⟩ := Option.isSome_iff_exists.mp hsome
  rw [hj, inst_unique hM (inst?_mem hj) hi (inst?_id hj)]

theorem mem_region {M : Module} (hM : M.Ids) {bs : List BlockId} {b : Block} :
    b ∈ M.region bs ↔ b ∈ M.blocks ∧ b.id ∈ bs := by
  rw [Module.region, List.mem_filterMap]
  constructor
  · rintro ⟨n, hn, he⟩
    obtain ⟨hb, rfl⟩ := block?_some he
    exact ⟨hb, hn⟩
  · rintro ⟨hb, hn⟩
    exact ⟨b.id, hn, block?_mem hM hb⟩

theorem region_ids_sublist (M : Module) (bs : List BlockId) :
    List.Sublist ((M.region bs).map Block.id) bs := by
  induction bs with
  | nil => exact List.Sublist.slnil
  | cons n bs ih =>
    rw [Module.region, List.filterMap_cons]
    cases h : M.block? n with
    | none => exact ih.cons n
    | some b =>
      obtain ⟨-, rfl⟩ := block?_some h
      exact ih.cons_cons b.id

section SplitBlock

/-- Where `SplitBlock` cuts: at the split point, or after the PHIs and EH pads
that start there. -/
def Block.splitIndex (b : Block) (pt : InstId) : Nat :=
  let k := b.insts.findIdx fun i => i.id = pt
  k + ((b.insts.drop k).takeWhile fun i => i.isPHI || i.op.isEHPad).length

/-- `splitBasicBlock`: the tail moves to the block `new`, the head branches to it. -/
def Block.splitAt (b : Block) (k : Nat) (new : Nat) : List Block :=
  [{ b with insts := b.insts.take k ++ [Inst.uncondBr new new] },
   { id := new, insts := b.insts.drop k, hasAddressTaken := false }]

/-- PHIs of a successor of the tail learn that the edge now leaves `new`. -/
def Block.redirectPHIs (old new : BlockId) (b : Block) : Block :=
  b.mapInsts fun i => if i.isPHI then i.replaceIncomingOfWith old new else i

/-- The blocks a block becomes when `old` is cut at `pt`. -/
def Block.cut (old : BlockId) (pt : InstId) (new : Nat) (b : Block) : List Block :=
  if b.id = old then b.splitAt (b.splitIndex pt) new else [b]

/-- `splitBasicBlock` before the PHIs of the successors are updated. -/
def Module.cutBlock (M : Module) (old : BlockId) (pt : InstId) : Module :=
  { M with
    funcs := M.funcs.map fun f => { f with blocks := f.blocks.flatMap (Block.cut old pt M.nextId) }
    nextId := M.nextId + 1 }

/-- `SplitBlock(Old, SplitPt)`. The second component is the new block. -/
def Module.splitBlock (M : Module) (old : BlockId) (pt : InstId) : Module × BlockId :=
  let new := M.nextId
  let M' := M.cutBlock old pt
  let succs := ((M'.block? new).map Block.succs).getD []
  (M'.mapIn succs (Block.redirectPHIs old new), new)

theorem mapBlocks_blocks (g : Block → Block) (M : Module) :
    (M.mapBlocks g).blocks = M.blocks.map g := by
  simp only [Module.blocks, Module.mapBlocks, List.flatMap_map, Function.mapBlocks,
    List.map_flatMap]

theorem mapIn_blocks (bs : List BlockId) (g : Block → Block) (M : Module) :
    (M.mapIn bs g).blocks = M.blocks.map fun b => if b.id ∈ bs then g b else b :=
  mapBlocks_blocks _ M

theorem mapBlocks_mapBlocks (g h : Block → Block) (M : Module) :
    (M.mapBlocks g).mapBlocks h = M.mapBlocks fun b => h (g b) := by
  simp only [Module.mapBlocks, List.map_map, Module.mk.injEq, and_true]
  apply List.map_congr_left
  intro f _
  simp only [Function.comp_apply, Function.mapBlocks, List.map_map, Function.comp_def]

theorem mapBlocks_id (M : Module) : (M.mapBlocks fun b => b) = M := by
  have hf : Function.mapBlocks (fun b => b) = id := by
    funext f
    simp only [Function.mapBlocks, List.map_id', id]
  simp only [Module.mapBlocks, hf, List.map_id]

theorem redirectPHIs_core (old new : BlockId) (b : Block) :
    (b.redirectPHIs old new).insts.map Inst.core = b.insts.map Inst.core := by
  simp only [Block.redirectPHIs, Block.mapInsts, List.map_map]
  apply List.map_congr_left
  intro i _
  simp only [Function.comp_apply]
  split <;> rfl

theorem cutBlock_blocks (M : Module) (old : BlockId) (pt : InstId) :
    (M.cutBlock old pt).blocks = M.blocks.flatMap (Block.cut old pt M.nextId) := by
  simp only [Module.blocks, Module.cutBlock, List.flatMap_map, List.flatMap_assoc]

/-- A split and the bare cut have the same blocks up to PHI edges. -/
theorem splitBlock_blocks (M : Module) (old : BlockId) (pt : InstId) :
    ∃ h : Block → Block,
      (∀ b, (h b).id = b.id ∧ (h b).insts.map Inst.core = b.insts.map Inst.core) ∧
      (M.splitBlock old pt).1.blocks =
        (M.blocks.flatMap (Block.cut old pt M.nextId)).map h := by
  rw [Module.splitBlock, mapIn_blocks, cutBlock_blocks]
  refine ⟨_, ?_, rfl⟩
  intro b
  split
  · exact ⟨rfl, redirectPHIs_core old M.nextId b⟩
  · exact ⟨rfl, rfl⟩

@[simp] theorem splitBlock_snd (M : Module) (old : BlockId) (pt : InstId) :
    (M.splitBlock old pt).2 = M.nextId := rfl

@[simp] theorem splitBlock_nextId (M : Module) (old : BlockId) (pt : InstId) :
    (M.splitBlock old pt).1.nextId = M.nextId + 1 := rfl

theorem flatMap_cut_of_notMem (bs : List Block) (old : BlockId) (pt : InstId) (new : Nat)
    (h : ∀ b ∈ bs, b.id ≠ old) : bs.flatMap (Block.cut old pt new) = bs := by
  induction bs with
  | nil => rfl
  | cons b bs ih =>
    have hb : b.id ≠ old := h b (List.mem_cons_self ..)
    have ht := ih fun x hx => h x (List.mem_cons_of_mem _ hx)
    simp only [List.flatMap_cons, Block.cut, if_neg hb, ht, List.singleton_append]

/-- With one block of the number `old`, the cut replaces it in place. -/
theorem flatMap_cut (pre post : List Block) (b : Block) (pt : InstId) (new : Nat)
    (h : ((pre ++ b :: post).map Block.id).Nodup) :
    (pre ++ b :: post).flatMap (Block.cut b.id pt new) =
      pre ++ b.splitAt (b.splitIndex pt) new ++ post := by
  simp only [List.map_append, List.map_cons, List.nodup_append, List.nodup_cons,
    List.mem_map, not_exists, not_and] at h
  obtain ⟨-, ⟨hpost, -⟩, hpre⟩ := h
  have h1 := flatMap_cut_of_notMem pre b.id pt new fun x hx he =>
    hpre x.id ⟨x, hx, rfl⟩ b.id (List.mem_cons_self ..) he
  have h2 := flatMap_cut_of_notMem post b.id pt new fun x hx he => hpost x hx he
  simp only [List.flatMap_append, List.flatMap_cons, h1, h2, Block.cut, if_true,
    List.append_assoc]

theorem map_id_of_shape {h : Block → Block}
    (hh : ∀ b, (h b).id = b.id ∧ (h b).insts.map Inst.core = b.insts.map Inst.core)
    (bs : List Block) : (bs.map h).map Block.id = bs.map Block.id := by
  rw [List.map_map]
  exact List.map_congr_left fun b _ => (hh b).1

theorem ids_of_core {is js : List Inst} (h : is.map Inst.core = js.map Inst.core) :
    is.map Inst.id = js.map Inst.id := by
  have := congrArg (List.map Inst.id) h
  simpa only [List.map_map, Function.comp_def, core_id] using this

theorem map_instId_of_shape {h : Block → Block}
    (hh : ∀ b, (h b).id = b.id ∧ (h b).insts.map Inst.core = b.insts.map Inst.core)
    (bs : List Block) :
    ((bs.map h).flatMap Block.insts).map Inst.id = (bs.flatMap Block.insts).map Inst.id := by
  simp only [List.flatMap_map, List.map_flatMap]
  congr 1
  funext b
  exact ids_of_core (hh b).2

theorem splitAt_instIds (b : Block) (k new : Nat) :
    List.Perm (((b.splitAt k new).flatMap Block.insts).map Inst.id)
      (new :: b.insts.map Inst.id) := by
  simp only [Block.splitAt, List.flatMap_cons, List.flatMap_nil, List.append_nil,
    List.append_assoc, List.singleton_append, List.map_append, List.map_cons, Inst.uncondBr]
  refine List.perm_middle.trans ?_
  rw [← List.map_append, List.take_append_drop]

/-- An existing block gives way to its two halves, up to PHI edges. -/
theorem splitBlock_halves {M : Module} (hM : M.Ids) {b : Block} (hb : b ∈ M.blocks) (pt : InstId) :
    ∃ (h : Block → Block) (pre post : List Block),
      (∀ b, (h b).id = b.id ∧ (h b).insts.map Inst.core = b.insts.map Inst.core) ∧
      M.blocks = pre ++ b :: post ∧
      (M.splitBlock b.id pt).1.blocks = (pre ++ b.splitAt (b.splitIndex pt) M.nextId ++ post).map h := by
  obtain ⟨h, hh, hblocks⟩ := splitBlock_blocks M b.id pt
  obtain ⟨pre, post, hM'⟩ := List.append_of_mem hb
  have hnd := hM.blocks_nodup
  rw [hM'] at hblocks hnd
  rw [flatMap_cut pre post b pt _ hnd] at hblocks
  exact ⟨h, pre, post, hh, hM', hblocks⟩

/-- A split of an existing block adds one block number and one instruction number. -/
theorem splitBlock_perm {M : Module} (hM : M.Ids) {b : Block} (hb : b ∈ M.blocks) (pt : InstId) :
    List.Perm ((M.splitBlock b.id pt).1.blocks.map Block.id)
        (M.nextId :: M.blocks.map Block.id) ∧
      List.Perm ((M.splitBlock b.id pt).1.insts.map Inst.id)
        (M.nextId :: M.insts.map Inst.id) := by
  obtain ⟨h, pre, post, hh, hM', hblocks⟩ := splitBlock_halves hM hb pt
  constructor
  · rw [hblocks, map_id_of_shape hh, hM']
    simp only [Block.splitAt, List.map_append, List.map_cons, List.append_assoc,
      List.cons_append, List.nil_append]
    exact ((List.Perm.swap _ _ _).append_left _).trans List.perm_middle
  · rw [Module.insts, hblocks, map_instId_of_shape hh, Module.insts, hM']
    simp only [List.flatMap_append, List.flatMap_cons, List.map_append, List.append_assoc]
    have hmid := splitAt_instIds b (b.splitIndex pt) M.nextId
    exact ((hmid.append_right _).append_left _).trans List.perm_middle

theorem splitBlock_of_notMem {M : Module} {old : BlockId} (pt : InstId)
    (h : ∀ b ∈ M.blocks, b.id ≠ old) :
    (M.splitBlock old pt).1.blocks.map Block.id = M.blocks.map Block.id ∧
      (M.splitBlock old pt).1.insts.map Inst.id = M.insts.map Inst.id := by
  obtain ⟨g, hg, hblocks⟩ := splitBlock_blocks M old pt
  rw [flatMap_cut_of_notMem M.blocks old pt _ h] at hblocks
  exact ⟨by rw [hblocks, map_id_of_shape hg],
    by rw [Module.insts, hblocks, map_instId_of_shape hg, Module.insts]⟩

theorem ids_iff (M : Module) : M.Ids ↔
    ((M.blocks.map Block.id).Nodup ∧ ∀ n ∈ M.blocks.map Block.id, n < M.nextId) ∧
      ((M.insts.map Inst.id).Nodup ∧ ∀ n ∈ M.insts.map Inst.id, n < M.nextId) := by
  simp only [List.mem_map, forall_exists_index, and_imp, forall_apply_eq_imp_iff₂]
  exact ⟨fun h => ⟨⟨h.1, h.3⟩, h.2, h.4⟩, fun h => ⟨h.1.1, h.2.1, h.1.2, h.2.2⟩⟩

theorem nodup_of_fresh {l l' : List Nat} {n : Nat} (hp : List.Perm l' (n :: l))
    (h : l.Nodup ∧ ∀ x ∈ l, x < n) : l'.Nodup ∧ ∀ x ∈ l', x < n + 1 := by
  constructor
  · rw [hp.nodup_iff, List.nodup_cons]
    exact ⟨fun hn => Nat.lt_irrefl n (h.2 n hn), h.1⟩
  · intro x hx
    rcases List.mem_cons.mp (hp.mem_iff.mp hx) with rfl | hx
    · exact Nat.lt_succ_self _
    · exact Nat.lt_succ_of_lt (h.2 x hx)

theorem splitBlock_ids {M : Module} (hM : M.Ids) (old : BlockId) (pt : InstId) :
    (M.splitBlock old pt).1.Ids := by
  have hi := (ids_iff M).mp hM
  rw [ids_iff, splitBlock_nextId]
  by_cases hold : ∃ b ∈ M.blocks, b.id = old
  · obtain ⟨b, hb, rfl⟩ := hold
    obtain ⟨h1, h2⟩ := splitBlock_perm hM hb pt
    exact ⟨nodup_of_fresh h1 hi.1, nodup_of_fresh h2 hi.2⟩
  · obtain ⟨h1, h2⟩ := splitBlock_of_notMem pt fun b hb he => hold ⟨b, hb, he⟩
    rw [h1, h2]
    exact ⟨⟨hi.1.1, fun n hn => Nat.lt_succ_of_lt (hi.1.2 n hn)⟩,
      hi.2.1, fun n hn => Nat.lt_succ_of_lt (hi.2.2 n hn)⟩

/-- What a block is after a split: another block, the head or the tail. -/
theorem splitBlock_cases {M : Module} (hM : M.Ids) {b : Block} (hb : b ∈ M.blocks) (pt : InstId)
    {c : Block} (hc : c ∈ (M.splitBlock b.id pt).1.blocks) :
    (∃ b₀ ∈ M.blocks, b₀.id ≠ b.id ∧ c.id = b₀.id ∧
      c.insts.map Inst.core = b₀.insts.map Inst.core) ∨
    (c.id = b.id ∧ c.insts.map Inst.core =
      (b.insts.take (b.splitIndex pt) ++ [Inst.uncondBr M.nextId M.nextId]).map Inst.core) ∨
    (c.id = M.nextId ∧ c.insts.map Inst.core =
      (b.insts.drop (b.splitIndex pt)).map Inst.core) := by
  obtain ⟨h, pre, post, hh, hM', hblocks⟩ := splitBlock_halves hM hb pt
  have hnd := hM.blocks_nodup
  rw [hM'] at hnd
  rw [hblocks] at hc
  obtain ⟨c₀, hc₀, rfl⟩ := List.mem_map.mp hc
  rw [(hh c₀).1, (hh c₀).2]
  have hne : ∀ x, x ∈ pre ∨ x ∈ post → x.id ≠ b.id := by
    intro x hx he
    simp only [List.map_append, List.map_cons, List.nodup_append, List.nodup_cons] at hnd
    rcases hx with hx | hx
    · exact hnd.2.2 x.id (List.mem_map_of_mem hx) b.id (List.mem_cons_self ..) he
    · exact hnd.2.1.1 (he ▸ List.mem_map_of_mem hx)
  simp only [Block.splitAt, List.mem_append, List.mem_cons, List.not_mem_nil, or_false] at hc₀
  rcases hc₀ with (hx | rfl | rfl) | hx
  · exact .inl ⟨c₀, by simp [hM', hx], hne c₀ (.inl hx), rfl, rfl⟩
  · exact .inr (.inl ⟨rfl, rfl⟩)
  · exact .inr (.inr ⟨rfl, rfl⟩)
  · exact .inl ⟨c₀, by simp [hM', hx], hne c₀ (.inr hx), rfl, rfl⟩

/-- The cut of `splitBlock` falls right before a split point that is no PHI. -/
theorem splitIndex_eq {b : Block} {xs ys : List Inst} {i : Inst} (hi : b.insts = xs ++ i :: ys)
    (hnd : (b.insts.map Inst.id).Nodup) (hphi : i.isPHI = false) (hpad : i.op.isEHPad = false) :
    b.splitIndex i.id = xs.length := by
  have hk : b.insts.findIdx (fun x => x.id = i.id) = xs.length := by
    rw [hi, List.map_append, List.map_cons, List.nodup_append] at hnd
    rw [hi, List.findIdx_append, List.findIdx_eq_length_of_false]
    · simp [List.findIdx_cons]
    · intro x hx
      have := hnd.2.2 x.id (List.mem_map_of_mem hx) i.id (List.mem_cons_self ..)
      simpa using this
  simp only [Block.splitIndex, hk]
  rw [hi, List.drop_left]
  simp [hphi, hpad]

end SplitBlock

section PhisFirst

/-- PHIs stand in front of all other instructions. -/
def PhisFirst (is : List Inst) : Prop :=
  ∃ ps rest, is = ps ++ rest ∧ (∀ p ∈ ps, p.isPHI = true) ∧ ∀ i ∈ rest, i.isPHI = false

theorem phisFirst_iff (is : List Inst) : PhisFirst is ↔ ∀ i ∈ is.dropWhile Inst.isPHI, i.isPHI = false := by
  constructor
  · rintro ⟨ps, rest, rfl, hp, hr⟩ i hi
    rw [List.dropWhile_append_of_pos hp] at hi
    exact hr i (List.dropWhile_subset _ hi)
  · intro h
    exact ⟨is.takeWhile Inst.isPHI, is.dropWhile Inst.isPHI, List.takeWhile_append_dropWhile.symm,
      List.all_eq_true.mp List.all_takeWhile, h⟩

instance (is : List Inst) : Decidable (PhisFirst is) := decidable_of_iff _ (phisFirst_iff is).symm

theorem phisFirst_core {is js : List Inst} (h : is.map Inst.core = js.map Inst.core) :
    PhisFirst is → PhisFirst js := by
  rintro ⟨ps, rest, rfl, hp, hr⟩
  rw [List.map_append] at h
  obtain ⟨ps', rest', rfl, h1, h2⟩ := List.map_eq_append_iff.mp h.symm
  have key : ∀ (xs ys : List Inst) (v : Bool), ys.map Inst.core = xs.map Inst.core →
      (∀ x ∈ xs, x.isPHI = v) → ∀ y ∈ ys, y.isPHI = v := by
    intro xs ys v he hx y hy
    obtain ⟨x, hxm, hxe⟩ := mem_of_core he.symm hy
    rw [← isPHI_of_core hxe, hx x hxm]
  exact ⟨ps', rest', rfl, key ps ps' true h1 hp, key rest rest' false h2 hr⟩

theorem phisFirst_take {is : List Inst} (h : PhisFirst is) (k : Nat) (br : Inst)
    (hbr : br.isPHI = false) : PhisFirst (is.take k ++ [br]) := by
  obtain ⟨ps, rest, rfl, hp, hr⟩ := h
  refine ⟨ps.take k, rest.take (k - ps.length) ++ [br], ?_, fun p hm => hp p (List.mem_of_mem_take hm),
    fun i hm => ?_⟩
  · rw [List.take_append, List.append_assoc]
  · rcases List.mem_append.mp hm with hm | hm
    · exact hr i (List.mem_of_mem_take hm)
    · rw [List.mem_singleton.mp hm]
      exact hbr

theorem phisFirst_drop {is : List Inst} (h : PhisFirst is) (k : Nat) : PhisFirst (is.drop k) := by
  obtain ⟨ps, rest, rfl, hp, hr⟩ := h
  exact ⟨ps.drop k, rest.drop (k - ps.length), List.drop_append,
    fun p hm => hp p (List.mem_of_mem_drop hm), fun i hm => hr i (List.mem_of_mem_drop hm)⟩

theorem splitBlock_phisFirst {M : Module} (hM : M.Ids) {b : Block} (hb : b ∈ M.blocks) (pt : InstId)
    (h : ∀ c ∈ M.blocks, PhisFirst c.insts) : ∀ c ∈ (M.splitBlock b.id pt).1.blocks, PhisFirst c.insts := by
  intro c hc
  rcases splitBlock_cases hM hb pt hc with ⟨b₀, hb₀, -, -, he⟩ | ⟨-, he⟩ | ⟨-, he⟩
  · exact phisFirst_core he.symm (h b₀ hb₀)
  · exact phisFirst_core he.symm (phisFirst_take (h b hb) _ _ rfl)
  · exact phisFirst_core he.symm (phisFirst_drop (h b hb) _)

end PhisFirst

section Terminated

/- The block ends with a terminator. -/
def Block.Terminated (b : Block) : Prop := ∃ t, b.terminator? = some t ∧ t.op.isTerminator = true

instance (b : Block) : Decidable b.Terminated :=
  decidable_of_iff (∃ t ∈ b.terminator?.toList, t.op.isTerminator = true) (by
    simp only [Option.mem_toList, Block.Terminated])

theorem terminated_core {b : Block} {is : List Inst} (h : b.insts.map Inst.core = is.map Inst.core)
    (ht : ∃ t, is.getLast? = some t ∧ t.op.isTerminator = true) : b.Terminated := by
  obtain ⟨t, ht, hop⟩ := ht
  have hlast := congrArg List.getLast? h
  rw [List.getLast?_map, List.getLast?_map, ht] at hlast
  obtain ⟨u, hu, he⟩ := Option.map_eq_some_iff.mp hlast
  exact ⟨u, hu, (congrArg Opcode.isTerminator (op_of_core he)).trans hop⟩

/- A split at an instruction that is no PHI and no pad leaves two blocks that end as they should. -/
theorem splitBlock_terminated {M : Module} (hM : M.Ids) (ht : ∀ b ∈ M.blocks, b.Terminated) {b : Block}
    (hb : b ∈ M.blocks) {i : Inst} (hi : i ∈ b.insts) (hphi : i.isPHI = false)
    (hpad : i.op.isEHPad = false) : ∀ c ∈ (M.splitBlock b.id i.id).1.blocks, c.Terminated := by
  intro c hc
  rcases splitBlock_cases hM hb i.id hc with ⟨b₀, hb₀, -, -, he⟩ | ⟨-, he⟩ | ⟨-, he⟩
  · exact terminated_core he (ht b₀ hb₀)
  · exact terminated_core he ⟨_, List.getLast?_concat, rfl⟩
  · obtain ⟨xs, ys, hsplit⟩ := List.append_of_mem hi
    have hk := splitIndex_eq hsplit (block_insts_nodup hM hb) hphi hpad
    obtain ⟨t, hlast, hop⟩ := ht b hb
    rw [Block.terminator?, hsplit, List.getLast?_append_cons] at hlast
    rw [hk, hsplit, List.drop_left] at he
    exact terminated_core he ⟨t, hlast, hop⟩

end Terminated

end Atrox.IR
