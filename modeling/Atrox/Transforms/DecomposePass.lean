import Atrox.Support.GeneralUtils
import Atrox.Transforms.SkippedRefs
import Atrox.Transforms.CloneShape

/-!
# The decomposition pass (DecomposeMultiDimArrayRefsPass.cpp)

The accesses of a function are collected once; their GEPs give way to one another while the loop
over the accesses runs. `none` stands for a failed assertion or a look at what was erased.
-/

namespace Atrox
open IR Lib

section Pass

def IR.Module.functionBlocks (M : Module) (f : FuncId) : List Block :=
  (M.funcs.filter fun F => F.id = f).flatMap Function.blocks

def IR.Module.functionInsts (M : Module) (f : FuncId) : List Inst := (M.functionBlocks f).flatMap Block.insts

/- `MemAccInst::isa`. -/
def isMemAccInst (i : Inst) : Bool :=
  match i.op with
  | .load | .store | .call _ _ => true
  | _ => false

/- What `MemAccInstVisitor` collects from a function. -/
def memAccesses (M : Module) (f : FuncId) : List InstId := ((M.functionInsts f).filter isMemAccInst).map Inst.id

/- One round of the loop over the accesses. -/
def decomposeAccess (st : Bool × Module) (access : InstId) : Option (Bool × Module) :=
  (st.2.inst? access).bind fun e =>
  match getPointerOperand e with
  | some (.inst g _) => (st.2.inst? g).bind fun gep =>
    if gep.op = .getElementPtr then (decomposeMultiDimArrayRefs st.2 gep).map fun r => (st.1 || r.2.isSome, r.1)
    else some st
  | _ => some st

/- `DecomposeMultiDimArrayRefsPass::perform` on the function `f` of the given name. -/
def DecomposeMultiDimArrayRefsPass.perform (isDeclaration : Bool) (whiteList : Option (List String)) (name : String)
    (M : Module) (f : FuncId) : Option (Bool × Module) :=
  if isDeclaration || whiteList.any fun ws => name ∉ ws then some (false, M)
  else (memAccesses M f).foldlM decomposeAccess (false, M)

end Pass

section Emitted

/- A GEP with an index for each array and one for the pointer. -/
def Rewritable (gep : Inst) : Prop := gepLevels gep ≠ 0 ∧ (gepIndices gep).length = gepLevels gep + 1

/- The cast, GEPs with one index and loads through them, from values in `S` and inserted ones. -/
structure IRBuilder.Chain (S : Value → Prop) (s : IRBuilder) : Prop where
  operands : ∀ i ∈ s.insts, ∀ v ∈ i.operands, s.Has S v
  ops : ∀ i ∈ s.insts, i.op = .cast ∨ i.op = .getElementPtr ∨ i.op = .load
  geps : ∀ i ∈ s.insts, i.op = .getElementPtr → i.operands.length = 2
  loads : ∀ i ∈ s.insts, i.op = .load → ∃ g ∈ s.insts, g.op = .getElementPtr ∧ i.operands = [g.val]

variable {S : Value → Prop}

theorem insertInst_has (S : Value → Prop) (s : IRBuilder) (op : Opcode) (ty : Ty) (operands : List Value) :
    (s.insertInst op ty operands).2.Has S (s.insertInst op ty operands).1 :=
  .inr ⟨_, List.mem_append_right _ (List.mem_singleton_self _), rfl⟩

/- One more instruction of the three kinds. -/
theorem insertInst_chain {s : IRBuilder} (h : s.Chain S) {op : Opcode} {ty : Ty} {operands : List Value}
    (hops : ∀ v ∈ operands, s.Has S v)
    (hkind : op = .cast ∨ (op = .getElementPtr ∧ operands.length = 2) ∨
      (op = .load ∧ ∃ g ∈ s.insts, g.op = .getElementPtr ∧ operands = [g.val])) :
    (s.insertInst op ty operands).2.Chain S := by
  have hpre : s.insts <+: (s.insertInst op ty operands).2.insts := List.prefix_append ..
  have hsplit : ∀ i ∈ (s.insertInst op ty operands).2.insts, i ∈ s.insts ∨ i = ⟨s.nextId, op, ty, operands, [], []⟩ :=
    fun i hi => (List.mem_append.mp hi).imp_right List.mem_singleton.mp
  refine ⟨fun i hi v hv => ?_, fun i hi => ?_, fun i hi hop => ?_, fun i hi hop => ?_⟩
  · rcases hsplit i hi with hi | rfl
    · exact (h.operands i hi v hv).mono hpre
    · exact (hops v hv).mono hpre
  · rcases hsplit i hi with hi | rfl
    · exact h.ops i hi
    · exact hkind.imp_right fun hk => hk.imp And.left And.left
  · rcases hsplit i hi with hi | rfl
    · exact h.geps i hi hop
    · rcases hkind with he | ⟨-, hlen⟩ | ⟨he, -⟩
      · exact nomatch he.symm.trans hop
      · exact hlen
      · exact nomatch he.symm.trans hop
  · rcases hsplit i hi with hi | rfl
    · obtain ⟨g, hg, hgep, hload⟩ := h.loads i hi hop
      exact ⟨g, hpre.subset hg, hgep, hload⟩
    · rcases hkind with he | ⟨he, -⟩ | ⟨-, g, hg, hgep, hload⟩
      · exact nomatch he.symm.trans hop
      · exact nomatch he.symm.trans hop
      · exact ⟨g, hpre.subset hg, hgep, hload⟩

theorem indexGEP_chain {s : IRBuilder} (h : s.Chain S) {lastPtr i : Value} (hp : s.Has S lastPtr)
    (hi : s.Has S i) (t : Ty) :
    (indexGEP s lastPtr t i).2.Chain S :=
  insertInst_chain h (List.forall_mem_cons.mpr ⟨hp, List.forall_mem_singleton.mpr hi⟩) (.inr (.inl ⟨rfl, rfl⟩))

theorem indexLoad_chain {s : IRBuilder} (h : s.Chain S) {lastPtr i : Value} (hp : s.Has S lastPtr)
    (hi : s.Has S i) (t : Ty) :
    (indexLoad s lastPtr t i).2.Chain S :=
  insertInst_chain (indexGEP_chain h hp hi t) (List.forall_mem_singleton.mpr (insertInst_has S ..))
    (.inr (.inr ⟨rfl, _, List.mem_append_right _ (List.mem_singleton_self _), rfl, rfl⟩))

/- The chain ends with a GEP. -/
theorem decomposeIndices_chain {ts : List Ty} {is : List Value} {s : IRBuilder} {lastPtr : Value} (h : s.Chain S)
    (hp : s.Has S lastPtr) (his : ∀ i ∈ is, S i) {r : Value × IRBuilder}
    (hr : decomposeIndices s lastPtr ts is = some r) :
    r.2.Chain S ∧ ∃ g ∈ r.2.insts, g.op = .getElementPtr ∧ r.1 = g.val := by
  refine decomposeIndices_induct (motive := fun s lastPtr _ is => s.Chain S → s.Has S lastPtr → (∀ i ∈ is, S i) →
    r.2.Chain S ∧ ∃ g ∈ r.2.insts, g.op = .getElementPtr ∧ r.1 = g.val) ?_ ?_ hr h hp his
  · intro s lastPtr t ts i _ hlast h hp his
    rw [hlast]
    exact ⟨indexGEP_chain h hp (.inl (his i (List.mem_singleton_self i))) t,
      _, List.mem_append_right _ (List.mem_singleton_self _), rfl, rfl⟩
  · intro s lastPtr t ts i j is _ _ ih h hp his
    obtain ⟨hi, hrest⟩ := List.forall_mem_cons.mp his
    exact ih (indexLoad_chain h hp (.inl hi) t) (insertInst_has S ..) hrest

/- The module once the chain `r` stands in the place of the GEP. -/
def IR.Module.rewritten (M : Module) (gep : Inst) (r : Value × IRBuilder) : Module :=
  { (M.replaceAllUsesWith gep.val r.1).replaceInst gep.id r.2.insts with nextId := r.2.nextId }

/- What is known of the chain for a GEP. -/
structure LoadChain (n : Nat) (gep : Inst) (r : Value × IRBuilder) : Prop where
  ids : r.2.From n
  chain : r.2.Chain fun v => v ∈ gep.operands
  typed : r.2.WellTyped
  last : ∃ g ∈ r.2.insts, g.op = .getElementPtr ∧ r.1 = g.val
  ty : r.1.ty = gep.ty

variable {M : Module} {gep : Inst} {base : Value} {indices : List Value} {source : Ty} {a : Nat}

/- A pointer as result means that no operand is a vector. -/
theorem IR.ValidGEP.scalar (h : ValidGEP gep base indices source a) (hptr : gep.ty.isPointerTy = true) :
    base.ty = .ptr source a ∧ ∀ i ∈ indices, i.ty.lanes = none := by
  obtain ⟨u, -, hty⟩ := h.ty
  rw [hty, gepReturnType_isPointerTy, h.operands, List.forall_mem_cons] at hptr
  refine ⟨h.base_ty.resolve_right fun hvec => ?_, hptr.2⟩
  obtain ⟨n, hn⟩ := hvec
  rw [hn] at hptr
  exact nomatch hptr.1

theorem rewritable_iff (hops : gep.operands = base :: indices) (hbase : base.ty = .ptr source a) :
    Rewritable gep ↔ IndexesNest source indices := by
  have hlevels : gepLevels gep = source.arraySizes.length := by
    rw [gepLevels, hops]
    dsimp only
    rw [hbase]
    rfl
  rw [Rewritable, IndexesNest, hlevels, gepIndices, hops, List.tail_cons]
  exact and_congr_left fun _ => not_congr List.length_eq_zero_iff

theorem decompose_left (h : ValidGEP gep base indices source a) (hbase : base.ty = .ptr source a)
    (hfit : 2 ≤ indices.length → source.arraySizes ≠ []) (hno : ¬ Rewritable gep) :
    decomposeMultiDimArrayRefs M gep = some (M, none) := by
  by_cases htwo : 2 ≤ indices.length
  · have htypes := newTypes_tables (hfit htwo) a
    rw [← hbase] at htypes
    refine decompose_skip h.operands htwo htypes fun he => hno ?_
    rw [tableTypes_length] at he
    exact (rewritable_iff h.operands hbase).mpr ⟨hfit htwo, he.symm⟩
  · unfold decomposeMultiDimArrayRefs
    rw [h.operands]
    exact if_pos (Nat.lt_of_not_le htwo)

theorem decompose_rewritten (h : ValidGEP gep base indices source 0) (hbase : base.ty = .ptr source 0)
    (hscalar : ∀ i ∈ indices, i.ty.lanes = none) (hyes : Rewritable gep) :
    ∃ r, decomposeMultiDimArrayRefs M gep = some (M.rewritten gep r, some r.1) ∧ LoadChain M.nextId gep r := by
  obtain ⟨hnest, hlen⟩ := (rewritable_iff h.operands hbase).mp hyes
  have hty := h.nest_ty hbase hlen
  obtain ⟨hthrough, -⟩ := decomposeEmits_iff h hbase hnest hlen M.nextId
  obtain ⟨r, hr, hwell, hrty⟩ := hthrough fun i hi => hscalar i (List.dropLast_subset indices hi)
  have hrun := decompose_emits (M := M) h.operands hbase hnest hlen
  rw [hr, Option.bind_some, if_neg (not_not.mpr (hty.trans hrty.symm))] at hrun
  unfold decomposeEmits at hr
  obtain ⟨newTypes, -, hr⟩ := Option.bind_eq_some_iff.mp hr
  obtain ⟨t, -, hr⟩ := Option.bind_eq_some_iff.mp hr
  have hstart : (⟨M.nextId, []⟩ : IRBuilder).Chain fun v => v ∈ gep.operands :=
    ⟨fun i hi => absurd hi List.not_mem_nil, fun i hi => absurd hi List.not_mem_nil,
      fun i hi => absurd hi List.not_mem_nil, fun i hi => absurd hi List.not_mem_nil⟩
  have hb : base ∈ gep.operands := h.operands ▸ List.mem_cons_self ..
  have his : ∀ i ∈ indices, i ∈ gep.operands := fun i hi => h.operands ▸ List.mem_cons_of_mem base hi
  have hcast : ((⟨M.nextId, []⟩ : IRBuilder).insertInst .cast t [base]).2.Chain fun v => v ∈ gep.operands :=
    insertInst_chain hstart (List.forall_mem_singleton.mpr (.inl hb)) (.inl rfl)
  obtain ⟨hchain, hlast⟩ := decomposeIndices_chain hcast (insertInst_has _ ..) his hr
  exact ⟨r, hrun, decomposeIndices_from (insertInst_from ⟨rfl, rfl⟩ .cast t [base]) hr, hchain, hwell, hlast,
    hrty.trans hty.symm⟩

end Emitted

section Replace

/- What `replaceAllUsesWith` does with an operand. -/
def replaceValue (src dst v : Value) : Value := if v = src then dst else v

theorem replaceUsesOfWith_operands (src dst : Value) (i : Inst) :
    (i.replaceUsesOfWith src dst).operands = i.operands.map (replaceValue src dst) := rfl

variable {src dst : Value}

theorem replaceValue_ty (hty : dst.ty = src.ty) (v : Value) : (replaceValue src dst v).ty = v.ty := by
  unfold replaceValue
  split
  · next he => rw [he, hty]
  · rfl

theorem getPointerOperand_replace (src dst : Value) (i : Inst) :
    getPointerOperand (i.replaceUsesOfWith src dst) = (getPointerOperand i).map (replaceValue src dst) :=
  getPointerOperand_map rfl (replaceUsesOfWith_operands src dst i)

theorem gepLevels_replace (hty : dst.ty = src.ty) (i : Inst) :
    gepLevels (i.replaceUsesOfWith src dst) = gepLevels i := by
  unfold gepLevels
  rw [replaceUsesOfWith_operands]
  cases i.operands with
  | nil => rfl
  | cons v vs => exact congrArg (fun t => (getDecomposedArraySizes t).length) (replaceValue_ty hty v)

theorem gepIndices_replace (src dst : Value) (i : Inst) :
    (gepIndices (i.replaceUsesOfWith src dst)).length = (gepIndices i).length := by
  unfold gepIndices
  rw [replaceUsesOfWith_operands, List.length_tail, List.length_tail, List.length_map]

theorem rewritable_replace (hty : dst.ty = src.ty) (i : Inst) :
    Rewritable (i.replaceUsesOfWith src dst) ↔ Rewritable i := by
  rw [Rewritable, Rewritable, gepLevels_replace hty, gepIndices_replace]

/- Constants stay, so the indices lead to the same type. -/
theorem indexed_map {φ : Value → Value} {t : Ty} {is : List Value} (h : ∀ i ∈ is, (φ i).fieldNumber = i.fieldNumber) :
    t.indexed (is.map φ) = t.indexed is := by
  induction is generalizing t with
  | nil => rfl
  | cons i is ih =>
    obtain ⟨hi, his⟩ := List.forall_mem_cons.mp h
    cases t with
    | array n e => exact ih his
    | vector n e => exact ih his
    | _ =>
      rw [List.map_cons, Ty.indexed, Ty.indexed, hi]
      · exact Option.bind_congr fun u _ => ih his
      all_goals exact fun _ _ he => nomatch he

theorem gepReturnType_map {φ : Value → Value} {t : Ty} {vs : List Value} (h : ∀ v, (φ v).ty = v.ty) :
    gepReturnType t (vs.map φ) = gepReturnType t vs := by
  unfold gepReturnType
  rw [List.findSome?_map]
  simp only [Function.comp_def, h]

theorem IR.ValidGEP.replace {gep : Inst} {base : Value} {indices : List Value} {source : Ty} {a : Nat}
    (h : ValidGEP gep base indices source a) (hty : dst.ty = src.ty) (hsrc : src.fieldNumber = none)
    (hdst : dst.fieldNumber = none) : ValidGEP (gep.replaceUsesOfWith src dst) (replaceValue src dst base)
      (indices.map (replaceValue src dst)) source a := by
  have hfield : ∀ v, (replaceValue src dst v).fieldNumber = v.fieldNumber := by
    intro v
    unfold replaceValue
    split
    · next he => rw [he, hsrc, hdst]
    · rfl
  obtain ⟨u, hu, hgty⟩ := h.ty
  refine ⟨h.op, by rw [replaceUsesOfWith_operands, h.operands, List.map_cons], ?_, fun i hi => ?_,
    fun v hv w hw => ?_,
    u, ?_, ?_⟩
  · rw [replaceValue_ty hty]
    exact h.base_ty
  · obtain ⟨j, hj, rfl⟩ := List.mem_map.mp hi
    rw [replaceValue_ty hty]
    exact h.int j hj
  · rw [replaceUsesOfWith_operands] at hv hw
    obtain ⟨v', hv', rfl⟩ := List.mem_map.mp hv
    obtain ⟨w', hw', rfl⟩ := List.mem_map.mp hw
    rw [replaceValue_ty hty, replaceValue_ty hty]
    exact h.lanes v' hv' w' hw'
  · rw [← List.map_tail, indexed_map fun i _ => hfield i]
    exact hu
  · rw [replaceUsesOfWith_operands, gepReturnType_map (replaceValue_ty hty)]
    exact hgty

end Replace

section Rewritten
variable {M : Module} {f : FuncId} {gep : Inst} {r : Value × IRBuilder}

/- The instruction goes through a GEP that is to be rewritten. -/
def Leads (M : Module) (i : Inst) : Prop :=
  ∃ gep ∈ M.insts, getPointerOperand i = some gep.val ∧ gep.op = .getElementPtr ∧ Rewritable gep

/- A function as the verifier accepts it, whose accesses go through arrays in the default address space. -/
structure ArrayAccesses (M : Module) (f : FuncId) : Prop where
  ids : M.Ids
  defined : ∀ i ∈ M.insts, ∀ g t, Value.inst g t ∈ i.operands → ∃ x ∈ M.insts, x.val = .inst g t
  geps : ∀ i ∈ M.insts, i.op = .getElementPtr → i.WellTyped
  pointers : ∀ i ∈ M.functionInsts f, ∀ p, getPointerOperand i = some p → p.ty.isPointerTy = true
  arrays : ∀ i ∈ M.functionInsts f, ∀ gep ∈ M.insts, getPointerOperand i = some gep.val → gep.op = .getElementPtr →
    2 ≤ (gepIndices gep).length → gepLevels gep ≠ 0 ∧ ∃ e, gep.ty = .ptr e 0

theorem functionInsts_mem {i : Inst} (hi : i ∈ M.functionInsts f) : i ∈ M.insts := by
  obtain ⟨b, hb, hib⟩ := List.mem_flatMap.mp hi
  obtain ⟨F, hF, hbF⟩ := List.mem_flatMap.mp hb
  exact List.mem_flatMap.mpr ⟨b, List.mem_flatMap.mpr ⟨F, (List.mem_filter.mp hF).1, hbF⟩, hib⟩

theorem rewritten_mapBlocks (M : Module) (gep : Inst) (r : Value × IRBuilder) :
    M.rewritten gep r = { M.mapBlocks (placeGEP gep r.2.insts r.1) with nextId := r.2.nextId } := by
  rw [Module.rewritten, Module.replaceInst, Module.replaceAllUsesWith, mapBlocks_mapBlocks]
  rfl

theorem functionBlocks_mapBlocks (M : Module) (f : FuncId) (g : Block → Block) :
    (M.mapBlocks g).functionBlocks f = (M.functionBlocks f).map g := by
  simp only [Module.functionBlocks, Module.mapBlocks, List.filter_map, List.flatMap_map, List.map_flatMap]
  rfl

theorem mem_rewritten {x : Inst} : x ∈ (M.rewritten gep r).insts ↔
    (x ∈ r.2.insts ∧ ∃ y ∈ M.insts, y.id = gep.id) ∨
      ∃ y ∈ M.insts, y.id ≠ gep.id ∧ x = y.replaceUsesOfWith gep.val r.1 := by
  have hblocks : (M.rewritten gep r).insts = (M.blocks.map (placeGEP gep r.2.insts r.1)).flatMap Block.insts := by
    rw [rewritten_mapBlocks, ← mapBlocks_blocks]
    rfl
  rw [hblocks]
  exact placeGEP_mem

theorem mem_rewritten_function {x : Inst} : x ∈ (M.rewritten gep r).functionInsts f ↔
    (x ∈ r.2.insts ∧ ∃ y ∈ M.functionInsts f, y.id = gep.id) ∨
      ∃ y ∈ M.functionInsts f, y.id ≠ gep.id ∧ x = y.replaceUsesOfWith gep.val r.1 := by
  have hblocks : (M.rewritten gep r).functionInsts f =
      ((M.functionBlocks f).map (placeGEP gep r.2.insts r.1)).flatMap Block.insts := by
    rw [rewritten_mapBlocks, ← functionBlocks_mapBlocks]
    rfl
  rw [hblocks]
  exact placeGEP_mem

/- What is inserted has the numbers from `n` on. -/
theorem from_range {n : Nat} {s : IRBuilder} (h : s.From n) {i : Inst} (hi : i ∈ s.insts) : n ≤ i.id ∧ i.id < s.nextId := by
  obtain ⟨hids, hnext⟩ := h
  have hm : i.id ∈ List.range' n s.insts.length := hids ▸ List.mem_map_of_mem hi
  rw [List.mem_range'_1] at hm
  omega

/- A chain is inserted behind all numbers. -/
theorem LoadChain.id_ge (hc : LoadChain M.nextId gep r) {i : Inst} (hi : i ∈ r.2.insts) :
    M.nextId ≤ i.id ∧ i.id < r.2.nextId := from_range hc.ids hi

theorem LoadChain.last_inst (hc : LoadChain M.nextId gep r) : ∃ j t, r.1 = .inst j t ∧ M.nextId ≤ j := by
  obtain ⟨g, hg, -, hval⟩ := hc.last
  exact ⟨g.id, g.ty, hval, (hc.id_ge hg).1⟩

/- Numbers from `nextId` on are new. -/
theorem rewritten_from (h : M.Ids) (hr : r.2.From M.nextId) : (M.rewritten gep r).Ids := by
  have hge := fun i (hi : i ∈ r.2.insts) => from_range hr hi
  obtain ⟨hids, hnext⟩ := hr
  have hle : M.nextId ≤ r.2.nextId := by omega
  have hblocks : (M.rewritten gep r).blocks = M.blocks.map (placeGEP gep r.2.insts r.1) := by
    rw [rewritten_mapBlocks, ← mapBlocks_blocks]
    rfl
  refine ⟨?_, ?_, fun b hb => ?_, fun i hi => ?_⟩
  · rw [hblocks, List.map_map]
    exact h.blocks_nodup
  · rw [Module.insts, hblocks, flatMap_blocks_insts]
    refine nodup_replace _ r.2.insts gep.id M.nextId ?_ ?_ ?_ fun i hi => (hge i hi).1
    · rw [List.map_map]
      exact h.insts_nodup
    · intro x hx
      obtain ⟨y, hy, rfl⟩ := List.mem_map.mp hx
      exact h.insts_lt y hy
    · rw [hids]
      exact List.nodup_range'
  · rw [hblocks] at hb
    obtain ⟨c, hc', rfl⟩ := List.mem_map.mp hb
    exact Nat.lt_of_lt_of_le (h.blocks_lt c hc') hle
  · rcases mem_rewritten.mp hi with ⟨hi, -⟩ | ⟨y, hy, -, rfl⟩
    · exact (hge i hi).2
    · exact Nat.lt_of_lt_of_le (h.insts_lt y hy) hle

theorem rewritten_ids (h : M.Ids) (hc : LoadChain M.nextId gep r) : (M.rewritten gep r).Ids := rewritten_from h hc.ids

/- What is no GEP in the way stays. -/
theorem rewritten_keeps (h : M.Ids) (hgep : gep ∈ M.insts) {x : Inst} (hx : x ∈ M.insts) (hne : x.val ≠ gep.val) :
    x.replaceUsesOfWith gep.val r.1 ∈ (M.rewritten gep r).insts := by
  refine mem_rewritten.mpr (.inr ⟨x, hx, fun he => hne ?_, rfl⟩)
  rw [inst_unique h hx hgep he]

theorem rewritten_new (hgep : gep ∈ M.insts) {x : Inst} (hx : x ∈ r.2.insts) : x ∈ (M.rewritten gep r).insts :=
  mem_rewritten.mpr (.inl ⟨hx, gep, hgep, rfl⟩)

/- Of what was inserted only the loads go through a pointer, each through a GEP of the chain. -/
theorem LoadChain.pointer {n : Nat} (hc : LoadChain n gep r) {i : Inst} (hi : i ∈ r.2.insts) {p : Value}
    (hp : getPointerOperand i = some p) : i.op = .load ∧ ∃ g ∈ r.2.insts, g.op = .getElementPtr ∧ p = g.val := by
  unfold getPointerOperand at hp
  rcases hc.chain.ops i hi with hop | hop | hop
  · rw [hop] at hp
    exact nomatch hp
  · rw [hop] at hp
    exact nomatch hp
  · obtain ⟨g, hg, hgep, hload⟩ := hc.chain.loads i hi hop
    rw [hop, hload] at hp
    exact ⟨hop, g, hg, hgep, (Option.some.inj hp).symm⟩

theorem LoadChain.pointer_ty {n : Nat} (hc : LoadChain n gep r) {i : Inst} (hi : i ∈ r.2.insts) {p : Value}
    (hp : getPointerOperand i = some p) : p.ty.isPointerTy = true := by
  obtain ⟨hop, -⟩ := hc.pointer hi hp
  have hwell := hc.typed i hi
  unfold Inst.WellTyped at hwell
  rw [hop] at hwell
  obtain ⟨q, a, hops, hty⟩ := hwell
  have hmem := getPointerOperand_mem hp
  rw [hops, List.mem_singleton] at hmem
  rw [hmem, hty]
  rfl

/- A GEP that an access goes through has one index, or was there before and led there. -/
theorem rewritten_pointer (h : M.Ids) (hc : LoadChain M.nextId gep r) {i x : Inst}
    (hi : i ∈ (M.rewritten gep r).functionInsts f) (hx : x ∈ (M.rewritten gep r).insts)
    (hp : getPointerOperand i = some x.val) (hop : x.op = .getElementPtr) : x.operands.length = 2 ∨
      ∃ y ∈ M.functionInsts f, ∃ z ∈ M.insts, y.id = i.id ∧ x = z.replaceUsesOfWith gep.val r.1 ∧
        getPointerOperand y = some z.val ∧ z.val ≠ gep.val := by
  rcases mem_rewritten.mp hx with ⟨hx, -⟩ | ⟨z, hz, hne, rfl⟩
  · exact .inl (hc.chain.geps x hx hop)
  · right
    have hlt := h.insts_lt z hz
    have hval : getPointerOperand i = some z.val := hp
    rcases mem_rewritten_function.mp hi with ⟨hi, -⟩ | ⟨y, hy, -, rfl⟩
    · obtain ⟨-, g, hg, -, he⟩ := hc.pointer hi hval
      have hge := (hc.id_ge hg).1
      have hid : z.id = g.id := (Value.inst.inj he).1
      omega
    · rw [getPointerOperand_replace] at hval
      obtain ⟨p, hyp, he⟩ := Option.map_eq_some_iff.mp hval
      unfold replaceValue at he
      split at he
      · obtain ⟨j, t, hj, hge⟩ := hc.last_inst
        have hid : z.id = j := (Value.inst.inj (hj.symm.trans he)).1.symm
        omega
      · next hpne => exact ⟨y, hy, z, hz, rfl, rfl, he ▸ hyp, he ▸ hpne⟩

/- One rewritten GEP leaves a function of the same kind. -/
theorem ArrayAccesses.rewrite (h : ArrayAccesses M f) (hgep : gep ∈ M.insts) (hself : gep.val ∉ gep.operands)
    (hc : LoadChain M.nextId gep r) : ArrayAccesses (M.rewritten gep r) f := by
  have hty : r.1.ty = gep.val.ty := hc.ty
  obtain ⟨j, t, hlast, -⟩ := hc.last_inst
  -- operands other than the GEP are where they were
  have hkeeps : ∀ i ∈ M.insts, ∀ g t, Value.inst g t ∈ i.operands → .inst g t ≠ gep.val →
      ∃ x ∈ (M.rewritten gep r).insts, x.val = .inst g t := by
    intro i hi g t hv hne
    obtain ⟨x, hx, hxv⟩ := h.defined i hi g t hv
    exact ⟨_, rewritten_keeps h.ids hgep hx (hxv ▸ hne), hxv⟩
  refine ⟨rewritten_ids h.ids hc, fun i hi g t hv => ?_, fun i hi hop => ?_, fun i hi p hp => ?_,
    fun i hi x hx hp hop htwo => ?_⟩
  · rcases mem_rewritten.mp hi with ⟨hi, -⟩ | ⟨y, hy, -, rfl⟩
    · rcases hc.chain.operands i hi _ hv with hv | ⟨x, hx, hxv⟩
      · exact hkeeps gep hgep g t hv fun he => hself (he ▸ hv)
      · exact ⟨x, rewritten_new hgep hx, hxv.symm⟩
    · rw [replaceUsesOfWith_operands] at hv
      obtain ⟨u, hu, he⟩ := List.mem_map.mp hv
      unfold replaceValue at he
      split at he
      · obtain ⟨x, hx, -, hxv⟩ := hc.last
        exact ⟨x, rewritten_new hgep hx, (he.symm.trans hxv).symm⟩
      · next hne => exact hkeeps y hy g t (he ▸ hu) (he ▸ hne)
  · rcases mem_rewritten.mp hi with ⟨hi, -⟩ | ⟨y, hy, -, rfl⟩
    · exact hc.typed i hi
    · have hyop : y.op = .getElementPtr := hop
      have hwell := h.geps y hy hyop
      unfold Inst.WellTyped at hwell ⊢
      rw [hyop] at hwell
      rw [hop]
      obtain ⟨base, indices, source, a, hvalid⟩ := hwell
      exact ⟨_, _, _, _, hvalid.replace hty rfl (by rw [hlast]; rfl)⟩
  · rcases mem_rewritten_function.mp hi with ⟨hi, -⟩ | ⟨y, hy, -, rfl⟩
    · exact hc.pointer_ty hi hp
    · rw [getPointerOperand_replace] at hp
      obtain ⟨q, hq, rfl⟩ := Option.map_eq_some_iff.mp hp
      rw [replaceValue_ty hty]
      exact h.pointers y hy q hq
  · rcases rewritten_pointer h.ids hc hi hx hp hop with hlen | ⟨y, hy, z, hz, -, rfl, hyp, -⟩
    · rw [gepIndices, List.length_tail, hlen] at htwo
      exact absurd htwo (Nat.not_succ_le_self 1)
    · rw [gepIndices_replace] at htwo
      rw [gepLevels_replace hty]
      exact h.arrays y hy z hz hyp hop htwo

end Rewritten

section Run
variable {M : Module} {f : FuncId} {i : Inst}

/- What the verifier says of the GEP an access goes through. -/
theorem ArrayAccesses.gep (h : ArrayAccesses M f) (hi : i ∈ M.functionInsts f) {gep : Inst} (hgep : gep ∈ M.insts)
    (hp : getPointerOperand i = some gep.val) (hop : gep.op = .getElementPtr) :
    ∃ base indices source a, ValidGEP gep base indices source a ∧ base.ty = .ptr source a ∧
      (∀ v ∈ indices, v.ty.lanes = none) ∧ (2 ≤ indices.length → source.arraySizes ≠ [] ∧ a = 0) := by
  have hwell := h.geps gep hgep hop
  unfold Inst.WellTyped at hwell
  rw [hop] at hwell
  obtain ⟨base, indices, source, a, hvalid⟩ := hwell
  obtain ⟨hbase, hscalar⟩ := hvalid.scalar (h.pointers i hi gep.val hp)
  refine ⟨base, indices, source, a, hvalid, hbase, hscalar, fun htwo => ?_⟩
  have hidx : gepIndices gep = indices := by rw [gepIndices, hvalid.operands, List.tail_cons]
  obtain ⟨hlevels, e, he⟩ := h.arrays i hi gep hgep hp hop (hidx ▸ htwo)
  have hlen : gepLevels gep = source.arraySizes.length := by
    rw [gepLevels, hvalid.operands]
    dsimp only
    rw [hbase]
    rfl
  refine ⟨List.ne_nil_of_length_pos (Nat.pos_of_ne_zero (hlen ▸ hlevels)), ?_⟩
  obtain ⟨u, -, hty⟩ := hvalid.ty
  have hall : ∀ v ∈ gep.operands, v.ty.lanes = none := by
    rw [hvalid.operands]
    exact List.forall_mem_cons.mpr ⟨by rw [hbase]; rfl, hscalar⟩
  rw [gepReturnType_eq hall, he] at hty
  exact (Ty.ptr.inj hty).2.symm

/- No GEP over arrays is an operand of itself. -/
theorem gep_not_self {gep : Inst} {base : Value} {indices : List Value} {source : Ty}
    (h : ValidGEP gep base indices source 0)
    (hbase : base.ty = .ptr source 0) (hscalar : ∀ v ∈ indices, v.ty.lanes = none)
    (hnest : IndexesNest source indices) :
    gep.val ∉ gep.operands := by
  have hty : gep.ty = .ptr source.arrayElem 0 := (h.nest_ty hbase hnest.2).trans (gepReturnType_eq hscalar)
  rw [h.operands]
  intro hmem
  rcases List.mem_cons.mp hmem with he | hmem
  · have hsame : Ty.ptr source.arrayElem 0 = .ptr source 0 := by
      rw [← hty, ← hbase, ← he]
      rfl
    have hnil := arrayElem_arraySizes source
    rw [(Ty.ptr.inj hsame).1] at hnil
    exact hnest.1 hnil
  · have hint := h.int gep.val hmem
    have hval : gep.val.ty = .ptr source.arrayElem 0 := hty
    rw [hval] at hint
    exact nomatch hint

/- An access that leads to no such GEP changes nothing. -/
theorem decomposeAccess_skip (h : ArrayAccesses M f) (hi : i ∈ M.functionInsts f) (hno : ¬ Leads M i) (c : Bool) :
    decomposeAccess (c, M) i.id = some (c, M) := by
  have him := functionInsts_mem hi
  unfold decomposeAccess
  rw [inst?_of_mem h.ids him, Option.bind_some]
  split
  · next g t hp =>
    obtain ⟨x, hx, hxv⟩ := h.defined i him g t (getPointerOperand_mem hp)
    obtain ⟨rfl, rfl⟩ := Value.inst.inj hxv
    rw [inst?_of_mem h.ids hx, Option.bind_some]
    split
    · next hop =>
      obtain ⟨base, indices, source, a, hvalid, hbase, -, hfit⟩ := h.gep hi hx hp hop
      have hleft := decompose_left (M := M) hvalid hbase
        (fun htwo => (hfit htwo).1) fun hyes => hno ⟨x, hx, hp, hop, hyes⟩
      rw [hleft]
      exact congrArg (fun b => some (b, M)) (Bool.or_false c)
    · rfl
  · rfl

/- One that does leads to a rewritten GEP. -/
theorem decomposeAccess_rewrites (h : ArrayAccesses M f) (hi : i ∈ M.functionInsts f) (hlead : Leads M i) (c : Bool) :
    ∃ gep r, gep ∈ M.insts ∧ getPointerOperand i = some gep.val ∧ gep.op = .getElementPtr ∧ gep.val ∉ gep.operands ∧
      LoadChain M.nextId gep r ∧ decomposeAccess (c, M) i.id = some (true, M.rewritten gep r) := by
  obtain ⟨gep, hgep, hp, hop, hyes⟩ := hlead
  obtain ⟨base, indices, source, a, hvalid, hbase, hscalar, hfit⟩ := h.gep hi hgep hp hop
  have hnest := (rewritable_iff hvalid.operands hbase).mp hyes
  have hpos := List.length_pos_iff.mpr hnest.1
  have htwo : 2 ≤ indices.length := by
    have hlen := hnest.2
    omega
  obtain rfl := (hfit htwo).2
  obtain ⟨r, hrun, hc⟩ := decompose_rewritten (M := M) hvalid hbase hscalar hyes
  refine ⟨gep, r, hgep, hp, hop, gep_not_self hvalid hbase hscalar hnest, hc, ?_⟩
  unfold decomposeAccess
  rw [inst?_of_mem h.ids (functionInsts_mem hi), Option.bind_some, hp]
  have hval : gep.val = .inst gep.id gep.ty := rfl
  dsimp only
  rw [hval]
  dsimp only
  rw [inst?_of_mem h.ids hgep, Option.bind_some, if_pos hop, hrun]
  exact congrArg (fun b => some (b, M.rewritten gep r)) (Bool.or_true c)

/- Between two rounds: the accesses are there, and those already seen, and those that were not
collected, lead to no GEP that is to be rewritten. -/
structure PassState (accesses : List InstId) (f : FuncId) (pre : List InstId) (M : Module) : Prop where
  function : ArrayAccesses M f
  present : ∀ a ∈ accesses, ∃ i ∈ M.functionInsts f, i.id = a ∧ i.op ≠ .getElementPtr
  done : ∀ i ∈ M.functionInsts f, (i.id ∈ accesses → i.id ∈ pre) → ¬ Leads M i

theorem PassState.rewrite {accesses pre : List InstId} {gep : Inst} {r : Value × IRBuilder}
    (h : PassState accesses f pre M)
    (hi : i ∈ M.functionInsts f) (hgep : gep ∈ M.insts) (hp : getPointerOperand i = some gep.val)
    (hop : gep.op = .getElementPtr) (hself : gep.val ∉ gep.operands) (hc : LoadChain M.nextId gep r) :
    PassState accesses f (pre ++ [i.id]) (M.rewritten gep r) := by
  refine ⟨h.function.rewrite hgep hself hc, fun a ha => ?_, fun k hk hseen => ?_⟩
  · obtain ⟨y, hy, rfl, hyop⟩ := h.present a ha
    refine ⟨y.replaceUsesOfWith gep.val r.1, mem_rewritten_function.mpr
      (.inr ⟨y, hy, fun he => hyop ?_, rfl⟩), rfl, hyop⟩
    rw [inst_unique h.function.ids (functionInsts_mem hy) hgep he]
    exact hop
  · rintro ⟨x, hx, hkp, hxop, hyes⟩
    rcases rewritten_pointer h.function.ids hc hk hx hkp hxop with hlen | ⟨y, hy, z, hz, hid, rfl, hyp, hne⟩
    · obtain ⟨hlevels, hidx⟩ := hyes
      rw [gepIndices, List.length_tail, hlen] at hidx
      omega
    · rw [rewritable_replace hc.ty] at hyes
      have hlead : Leads M y := ⟨z, hz, hyp, hxop, hyes⟩
      -- the access of this round went through `gep`
      have hyi : y.id ≠ i.id := by
        intro he
        rw [inst_unique h.function.ids (functionInsts_mem hy) (functionInsts_mem hi) he, hp] at hyp
        exact hne (Option.some.inj hyp).symm
      refine h.done y hy (fun hya => ?_) hlead
      rcases List.mem_append.mp (hseen (hid ▸ hya)) with hpre | hlast
      · exact hid ▸ hpre
      · exact absurd (hid.trans (List.mem_singleton.mp hlast)) hyi

theorem PassState.start (h : ArrayAccesses M f) : PassState (memAccesses M f) f [] M := by
  refine ⟨h, fun a ha => ?_, fun i hi hseen => ?_⟩
  · obtain ⟨i, hi, rfl⟩ := List.mem_map.mp ha
    obtain ⟨hif, hacc⟩ := List.mem_filter.mp hi
    refine ⟨i, hif, rfl, fun hop => ?_⟩
    rw [isMemAccInst, hop] at hacc
    exact nomatch hacc
  · rintro ⟨gep, -, hp, -, -⟩
    have hacc : isMemAccInst i = true := by
      unfold getPointerOperand at hp
      unfold isMemAccInst
      split at hp
      · next hop => rw [hop]
      · next hop => rw [hop]
      · next hop => rw [hop]
      · exact nomatch hp
    exact absurd (hseen (List.mem_map_of_mem (List.mem_filter.mpr ⟨hi, hacc⟩))) List.not_mem_nil

/- One round. -/
theorem PassState.step {accesses pre : List InstId} (h : PassState accesses f pre M) {a : InstId}
    (ha : a ∈ accesses) (c : Bool) :
    ∃ st, decomposeAccess (c, M) a = some st ∧ PassState accesses f (pre ++ [a]) st.2 := by
  obtain ⟨i, hi, rfl, -⟩ := h.present a ha
  by_cases hlead : Leads M i
  · obtain ⟨gep, r, hgep, hp, hop, hself, hc, hrun⟩ := decomposeAccess_rewrites h.function hi hlead c
    exact ⟨_, hrun, h.rewrite hi hgep hp hop hself hc⟩
  · refine ⟨_, decomposeAccess_skip h.function hi hlead c, h.function, h.present, fun k hk hseen hk' => ?_⟩
    refine h.done k hk (fun hka => ?_) hk'
    rcases List.mem_append.mp (hseen hka) with hpre | hlast
    · exact hpre
    · rw [inst_unique h.function.ids (functionInsts_mem hk) (functionInsts_mem hi)
        (List.mem_singleton.mp hlast)] at hk'
      exact absurd hk' hlead

theorem accesses_run (h : ArrayAccesses M f) : ∃ st, (memAccesses M f).foldlM decomposeAccess (false, M) = some st ∧
    ArrayAccesses st.2 f ∧ ∀ i ∈ st.2.functionInsts f, ¬ Leads st.2 i := by
  obtain ⟨st, hrun, hst⟩ := foldlM_total (f := decomposeAccess) (s := (false, M))
    (P := fun pre st => PassState (memAccesses M f) f pre st.2) (memAccesses M f)
    (fun pre a post st hsplit hst => hst.step (hsplit ▸ List.mem_append_right pre (List.mem_cons_self ..)) st.1)
    (PassState.start h)
  exact ⟨st, hrun, hst.function, fun i hi => hst.done i hi id⟩

/- With nothing left to do the loop does nothing. -/
theorem accesses_idle (h : ArrayAccesses M f) (hno : ∀ i ∈ M.functionInsts f, ¬ Leads M i) :
    (memAccesses M f).foldlM decomposeAccess (false, M) = some (false, M) := by
  obtain ⟨st, hrun, rfl⟩ := foldlM_total (f := decomposeAccess) (P := fun _ st => st = (false, M)) (memAccesses M f)
    (fun pre a post st hsplit hst => by
      have ha : a ∈ memAccesses M f := hsplit ▸ List.mem_append_right pre (List.mem_cons_self ..)
      obtain ⟨i, hi, rfl⟩ := List.mem_map.mp ha
      have hif := (List.mem_filter.mp hi).1
      exact ⟨(false, M), hst.symm ▸ decomposeAccess_skip h hif (hno i hif) false, rfl⟩)
    rfl
  exact hrun

/- Every access is followed to the end in one pass, the loads that come in with the chains as well. -/
theorem perform_decomposes (isDeclaration : Bool) (whiteList : Option (List String)) (name : String)
    (hdecl : isDeclaration = true → M.functionInsts f = []) (hlisted : ∀ ws, whiteList = some ws → name ∈ ws)
    (h : ArrayAccesses M f) :
    ∃ changed M', DecomposeMultiDimArrayRefsPass.perform isDeclaration whiteList name M f = some (changed, M') ∧
      (∀ i ∈ M'.functionInsts f, ∀ gep ∈ M'.insts, getPointerOperand i = some gep.val → gep.op = .getElementPtr →
        decomposeMultiDimArrayRefs M' gep = some (M', none)) ∧
      DecomposeMultiDimArrayRefsPass.perform isDeclaration whiteList name M' f = some (false, M') := by
  have hrun : ∀ N : Module, (isDeclaration = true → N.functionInsts f = []) →
      DecomposeMultiDimArrayRefsPass.perform isDeclaration whiteList name N f =
        (memAccesses N f).foldlM decomposeAccess (false, N) := by
    intro N hnone
    unfold DecomposeMultiDimArrayRefsPass.perform
    have hlist : (whiteList.any fun ws => name ∉ ws) = false := by
      cases whiteList with
      | none => rfl
      | some ws => simpa using hlisted ws rfl
    rw [hlist, Bool.or_false]
    split
    · next hd =>
      rw [memAccesses, hnone hd]
      rfl
    · rfl
  obtain ⟨⟨changed, M'⟩, hfold, hM', hno⟩ := accesses_run h
  have hdecl' : isDeclaration = true → M'.functionInsts f = [] := by
    intro hd
    rw [memAccesses, hdecl hd] at hfold
    obtain ⟨-, rfl⟩ := Prod.mk.inj (Option.some.inj hfold)
    exact hdecl hd
  refine ⟨changed, M', (hrun M hdecl).trans hfold, fun i hi gep hgep hp hop => ?_, ?_⟩
  · obtain ⟨base, indices, source, a, hvalid, hbase, -, hfit⟩ := hM'.gep hi hgep hp hop
    exact decompose_left hvalid hbase (fun htwo => (hfit htwo).1) fun hyes => hno i hi ⟨gep, hgep, hp, hop, hyes⟩
  · rw [hrun M' hdecl']
    exact accesses_idle hM' hno

theorem matrixRead_arrayAccesses : ArrayAccesses matrixRead 9 := by
  have hgep : ∀ i ∈ matrixRead.insts, i.op = .getElementPtr → i = matrixGEP := by decide
  have hptr : ∀ i ∈ matrixRead.insts, ∀ p ∈ (getPointerOperand i).toList, p.ty.isPointerTy = true := by decide
  have hdef : ∀ i ∈ matrixRead.insts, ∀ v ∈ i.operands, v ∈ matrixRead.insts.map Inst.val ∨ v.isModuleLevel = true ∨
      v ∈ (List.range 4).map fun k => Value.arg 9 k v.ty := by decide
  refine ⟨⟨by decide, by decide, by decide, by decide⟩, fun i hi g t hv => ?_, fun i hi hop => ?_,
    fun i hi p hp => ?_, fun i hi gep hg hp hop htwo => ?_⟩
  · rcases hdef i hi _ hv with hmem | hmod | harg
    · exact List.mem_map.mp hmem
    · exact nomatch hmod
    · obtain ⟨k, -, he⟩ := List.mem_map.mp harg
      exact nomatch he
  · rw [hgep i hi hop]
    exact ⟨_, _, matrixTy, 0, rfl, rfl, .inl rfl, by decide, by decide, _, rfl, rfl⟩
  · exact hptr i (functionInsts_mem hi) p (Option.mem_toList.mpr hp)
  · rw [hgep gep hg hop]
    exact ⟨by decide, _, rfl⟩

theorem perform_decomposes_matrixRead :
    ∃ changed M', DecomposeMultiDimArrayRefsPass.perform false none "f" matrixRead 9 = some (changed, M') ∧
      (∀ i ∈ M'.functionInsts 9, ∀ gep ∈ M'.insts, getPointerOperand i = some gep.val → gep.op = .getElementPtr →
        decomposeMultiDimArrayRefs M' gep = some (M', none)) ∧
      DecomposeMultiDimArrayRefsPass.perform false none "f" M' 9 = some (false, M') :=
  perform_decomposes false none "f" (fun h => nomatch h) (fun _ h => nomatch h) matrixRead_arrayAccesses

/- A function that the white list does not name keeps its access to the matrix. -/
theorem matrixRead_not_listed : ArrayAccesses matrixRead 9 ∧
    DecomposeMultiDimArrayRefsPass.perform false (some ["g"]) "f" matrixRead 9 = some (false, matrixRead) ∧
    matrixRead.functionInsts 9 = [matrixGEP, ⟨11, .load, .int 32, [matrixGEP.val], [], []⟩,
      ⟨12, .ret, .void, [.inst 11 (.int 32)], [], []⟩] ∧
    getPointerOperand ⟨11, .load, .int 32, [matrixGEP.val], [], []⟩ = some matrixGEP.val ∧
    ∃ M' v, decomposeMultiDimArrayRefs matrixRead matrixGEP = some (M', some v) :=
  ⟨matrixRead_arrayAccesses, rfl, rfl, rfl, _, _, rfl⟩

end Run

end Atrox
