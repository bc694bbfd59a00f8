import Mathlib.Data.List.Flatten
import Atrox.Transforms.FlattenStages

/-!
# The new function

What `cloneSevered` returns: the module before, and one function made of a root block,
an exit block and the rewritten clones.
-/

namespace Atrox
open IR Lib

/- The operands, incoming blocks and successors of a clone once all loops are done. -/
def rewriteInst (c : CloneCtx) (σ : List (Value × Value)) (vm : ValueMap) (i : Inst) : Inst :=
  remapInstruction vm (c.divert (substInst σ i))

@[simp] theorem rewriteInst_id (c : CloneCtx) (σ : List (Value × Value)) (vm : ValueMap) (i : Inst) :
    (rewriteInst c σ vm i).id = i.id := rfl

@[simp] theorem rewriteInst_op (c : CloneCtx) (σ : List (Value × Value)) (vm : ValueMap) (i : Inst) :
    (rewriteInst c σ vm i).op = i.op := rfl

@[simp] theorem rewriteInst_ty (c : CloneCtx) (σ : List (Value × Value)) (vm : ValueMap) (i : Inst) :
    (rewriteInst c σ vm i).ty = i.ty := rfl

/- A clone before the ignored intrinsics are erased. -/
def rewriteBlock (c : CloneCtx) (σ : List (Value × Value)) (vm : ValueMap) (cloneHeader : BlockId)
    (b : Block) : Block :=
  let b' := b.mapInsts (rewriteInst c σ vm)
  if b.id = cloneHeader then
    redirectHeaderPHIs (fun p => p = c.root || p = c.exit || p ∈ c.clones) c.root b'
  else b'

def dropIgnored (b : Block) : Block :=
  { b with insts := b.insts.filter fun i => !isIgnoredIntrinsic i }

def finishBlock (c : CloneCtx) (σ : List (Value × Value)) (vm : ValueMap) (cloneHeader : BlockId)
    (b : Block) : Block := dropIgnored (rewriteBlock c σ vm cloneHeader b)

/- The context `cloneFunction` sets up when the counter stands at `n`. -/
def cloneCtx (ce : CodeExtractor) (clones : List BlockId) (n : Nat) : CloneCtx where
  ce := ce
  newFunction := n
  params := paramTypes ce.aggregateArgs (ce.inputs.filter ce.isInputOnly).elems ce.outputs.elems
  root := n + 1
  exit := n + 2
  clones := clones

def rootBlock (c : CloneCtx) (s : Plan) (cloneHeader : BlockId) : Block where
  id := c.root
  insts := s.insts ++ [Inst.uncondBr (c.newFunction + 3) cloneHeader]
  hasAddressTaken := false

def retInst (n : Nat) : Inst := ⟨n, .ret, .void, [], [], []⟩

def exitBlock (c : CloneCtx) (s t : Plan) (vm : ValueMap) : Block where
  id := c.exit
  insts := t.insts.map (remapInstruction vm) ++ [retInst s.nextId]
  hasAddressTaken := false

section Exit
variable {M : Module} {c : CloneCtx} {f : FuncId} {cs : List Block} (nf : Function)

/- The module while the exit is filled. -/
def Plan.exitModule (t : Plan) (M : Module) (f : FuncId) (cs : List Block) (c : CloneCtx)
    (nf : Function) (root : List Inst) (ret : Inst) : Module :=
  staged M f cs
    { nf with blocks := [⟨c.root, root, false⟩, ⟨c.exit, t.insts ++ [ret], false⟩] } t.nextId

theorem exitModule_apart (h : Setting M c f cs) (root exit : Block) (hr : root.id = c.root)
    (he : exit.id = c.exit) : Apart M M.nextId c.clones { nf with blocks := [root, exit] } := by
  refine h.apart _ fun b hb => ?_
  simp only [List.mem_cons, List.not_mem_nil, or_false] at hb
  rcases hb with rfl | rfl
  · rw [hr]
    exact h.root_ge
  · rw [he]
    exact h.exit_ge

theorem exitModule_insertInst (h : Setting M c f cs) (hcs : ∀ x ∈ cs, x.id ∈ c.clones) (t : Plan)
    (root : List Inst) (ret : Inst) (op : Opcode) (ty : Ty) (operands : List Value) :
    CloneCtx.insertInst (t.exitModule M f cs c nf root ret) c.exit op ty operands =
      ((t.insertInst op ty operands).1,
        (t.insertInst op ty operands).2.exitModule M f cs c nf root ret) := by
  have hA := exitModule_apart nf h ⟨c.root, root, false⟩ ⟨c.exit, t.insts ++ [ret], false⟩ rfl rfl
  simp only [CloneCtx.insertInst, insertBeforeTerminator, Plan.exitModule]
  rw [staged_mapIn_new f _ _ hA hcs h.exit_ge]
  simp only [staged, appendBlocks, Plan.insertInst, Function.mapBlocks, List.map_cons, List.map_nil,
    if_true, if_neg h.root_ne_exit, List.dropLast_concat, List.getLast?_concat,
    Option.toList_some, List.append_assoc]

theorem storeOutput_plan (h : Setting M c f cs) (hcs : ∀ x ∈ cs, x.id ∈ c.clones) (root : List Inst)
    (ret : Inst) (t : Plan) (v : Value) :
    c.storeOutput (t.exitModule M f cs c nf root ret) v =
      (c.planStore t v).map fun t => t.exitModule M f cs c nf root ret := by
  unfold CloneCtx.storeOutput CloneCtx.planStore
  cases c.outputOf v with
  | none => rfl
  | some r =>
    simp only [bind, Option.bind, exitModule_insertInst nf h hcs]
    split
    · rfl
    · split <;> rfl

end Exit

/- Only stores go into the exit. -/
theorem planExit_store (c : CloneCtx) (n : Nat) (t : Plan) (h : c.planExit n = some t) :
    ∀ i ∈ t.insts, i.op = .store := by
  refine planExit_run (P := fun t : Plan => ∀ i ∈ t.insts, i.op = .store) (by simp) ?_ h
  intro s v r hs _ _ _ i hi
  rcases List.mem_append.mp hi with hi | hi
  · exact hs i hi
  · rw [List.mem_singleton.mp hi]

theorem map_mapInsts (g g' : Inst → Inst) (bs : List Block) :
    (bs.map (Block.mapInsts g)).map (Block.mapInsts g') = bs.map (Block.mapInsts fun i => g' (g i)) := by
  rw [List.map_map]
  apply List.map_congr_left
  intro b _
  simp only [Function.comp_apply, Block.mapInsts, List.map_map]
  rfl

section Stages
variable {M : Module} {c : CloneCtx} {f : FuncId} {cs : List Block} (nf : Function)

/- The root is filled, and its branch goes to the clone of the header. -/
theorem setSuccessor_plan (hS : Setting M c f cs) (s : Plan) (header cloneHeader : BlockId) :
    setSuccessor (s.rootModule M f cs c nf (Inst.uncondBr (c.newFunction + 3) header)) c.root cloneHeader =
      staged M f (cs.map (Block.mapInsts (substInst s.subst)))
        { nf with blocks := [rootBlock c s cloneHeader] } s.nextId := by
  have hA := hS.apart
    { nf with blocks := [⟨c.root, s.insts ++ [Inst.uncondBr (c.newFunction + 3) header], false⟩] } (by
    intro b hb
    rw [List.mem_singleton.mp hb]
    exact hS.root_ge)
  simp only [setSuccessor, Plan.rootModule]
  rw [staged_mapIn_new f _ _ hA (hS.mem_clones (Block.mapInsts (substInst s.subst)) fun _ => rfl)
    hS.root_ge]
  simp only [Function.mapBlocks, List.map_cons, List.map_nil, if_true, Block.mapTerminator,
    List.dropLast_concat, List.getLast?_concat, Option.map_some, Option.toList_some]
  rfl

/- Branches that leave the clones go to the exit. -/
theorem divert_plan (hS : Setting M c f cs) (s : Plan) (cloneHeader : BlockId) (n : Nat) :
    (staged M f (cs.map (Block.mapInsts (substInst s.subst)))
      { nf with blocks := [rootBlock c s cloneHeader, ⟨c.exit, [retInst s.nextId], false⟩] } n).mapIn
        c.clones (Block.mapInsts c.divert) =
      (⟨[], [], n⟩ : Plan).exitModule M f
        (cs.map (Block.mapInsts fun i => c.divert (substInst s.subst i))) c nf
        (rootBlock c s cloneHeader).insts (retInst s.nextId) := by
  have hA := exitModule_apart nf hS (rootBlock c s cloneHeader) ⟨c.exit, [retInst s.nextId], false⟩ rfl rfl
  have hcs := hS.mem_clones (Block.mapInsts (substInst s.subst)) fun _ => rfl
  rw [staged_mapIn_clones f _ n hA hcs, map_mapInsts]
  rfl

/- The stores of the exit are remapped, its return stays. -/
theorem remapExit_plan (hS : Setting M c f cs) (s t : Plan) {n : Nat} (ht : c.planExit n = some t)
    (vm : ValueMap) (cloneHeader : BlockId) :
    (t.exitModule M f cs c nf (rootBlock c s cloneHeader).insts (retInst s.nextId)).mapIn [c.exit]
        (remapExit vm) =
      staged M f cs { nf with blocks := [rootBlock c s cloneHeader, exitBlock c s t vm] } t.nextId := by
  have hcs : ∀ x ∈ cs, x.id ∈ c.clones := fun x hx => hS.ids ▸ List.mem_map_of_mem hx
  have hA := exitModule_apart nf hS (rootBlock c s cloneHeader)
    ⟨c.exit, t.insts ++ [retInst s.nextId], false⟩ rfl rfl
  have hnoterm : ∀ i ∈ t.insts, (!i.op.isTerminator) = true := by
    intro i hi
    rw [planExit_store c n t ht i hi]
    rfl
  refine (staged_mapIn_new f cs t.nextId hA hcs hS.exit_ge (remapExit vm)).trans ?_
  have hroot : (rootBlock c s cloneHeader).id ≠ c.exit := hS.root_ne_exit
  simp only [Function.mapBlocks, List.map_cons, List.map_nil, if_neg hroot, if_true, remapExit]
  rw [List.takeWhile_append_of_pos hnoterm, List.dropWhile_append_of_pos hnoterm]
  simp only [retInst, List.takeWhile_cons, List.dropWhile_cons, Opcode.isTerminator,
    Bool.not_true, Bool.false_eq_true, if_false, List.append_nil]
  rfl

/- The clones are remapped. -/
theorem remapClones_plan (hS : Setting M c f cs) (hA : Apart M M.nextId c.clones nf) (σ : List (Value × Value))
    (vm : ValueMap) (n : Nat) :
    (staged M f (cs.map (Block.mapInsts fun i => c.divert (substInst σ i))) nf n).mapIn c.clones
        (Block.mapInsts (remapInstruction vm)) =
      staged M f (cs.map (Block.mapInsts (rewriteInst c σ vm))) nf n := by
  have hcs := hS.mem_clones (Block.mapInsts fun i => c.divert (substInst σ i)) fun _ => rfl
  rw [staged_mapIn_clones f _ n hA hcs, map_mapInsts]
  rfl

end Stages

section Function
variable {M : Module} {f : FuncId} {cs : List Block}

/- What a successful `cloneFunction` returns. -/
theorem cloneFunction_eq {ce : CodeExtractor} {n : Nat} {old : Function} {clones : List BlockId}
    {header cloneHeader : BlockId}
    (hS : Setting M (cloneCtx ce clones n) f cs) {r : CloneCtx × Module}
    (h : cloneFunction ce (clonedModule M f cs n) old header cloneHeader clones = some r) :
    ∃ s t, (cloneCtx ce clones n).planRoot (n + 4) = some s ∧
      (cloneCtx ce clones n).planExit (s.nextId + 1) = some t ∧
      r.1 = cloneCtx ce clones n ∧
      r.2 = t.exitModule M f
        (cs.map (Block.mapInsts fun i => (cloneCtx ce clones n).divert (substInst s.subst i)))
        (cloneCtx ce clones n)
        ⟨n, (cloneCtx ce clones n).paramsOf M, ce.allowVarArgs && old.isVarArg, []⟩
        (rootBlock (cloneCtx ce clones n) s cloneHeader).insts (retInst s.nextId) := by
  set c := cloneCtx ce clones n with hc
  set nf : Function := ⟨n, c.paramsOf M, ce.allowVarArgs && old.isVarArg, []⟩ with hnf
  set br := Inst.uncondBr (n + 3) header with hbr
  have hstart : ({ clonedModule M f cs n with
      funcs := (clonedModule M f cs n).funcs ++
        [{ nf with blocks := [⟨n + 1, [br], false⟩] }], nextId := n + 4 } : Module) =
      (⟨[], [], n + 4⟩ : Plan).rootModule M f cs c nf br := by
    simp only [Plan.rootModule, map_substInst_nil]
    rfl
  unfold cloneFunction at h
  obtain ⟨M₁, h1, h⟩ := Option.bind_eq_some_iff.mp h
  obtain ⟨M₂, h2, h⟩ := Option.bind_eq_some_iff.mp h
  obtain ⟨M₃, h3, h⟩ := Option.bind_eq_some_iff.mp h
  obtain ⟨M₄, h4, h⟩ := Option.bind_eq_some_iff.mp h
  cases h
  obtain ⟨s, hroot, rfl⟩ := rootLoops_plan nf hS br (k := n + 4) (by
    rw [← hstart]
    exact h1) h2 h3
  -- the successor of the root, the exit block and the diverted branches
  let ret := retInst s.nextId
  have hpush : ({ pushBlock (setSuccessor (s.rootModule M f cs c nf br) c.root cloneHeader) n
      ⟨c.exit, [ret], false⟩ with
      nextId := s.nextId + 1 } : Module) =
      staged M f (cs.map (Block.mapInsts (substInst s.subst)))
        { nf with blocks := [rootBlock c s cloneHeader, ⟨c.exit, [ret], false⟩] } (s.nextId + 1) := by
    rw [show setSuccessor (s.rootModule M f cs c nf br) c.root cloneHeader = _ from
      setSuccessor_plan nf hS s header cloneHeader]
    have hpush' := staged_push f (cs.map (Block.mapInsts (substInst s.subst))) s.nextId
      { nf with blocks := [rootBlock c s cloneHeader] } hS.new_function ⟨c.exit, [ret], false⟩
    exact congrArg (fun N : Module => { N with nextId := s.nextId + 1 }) hpush'
  let final : Plan → Module := fun t => t.exitModule M f
    (cs.map (Block.mapInsts fun i => c.divert (substInst s.subst i))) c nf
    (rootBlock c s cloneHeader).insts ret
  have e4 : c.bidirectional.foldlM c.storeOutput (final ⟨[], [], s.nextId + 1⟩) = some M₄ := by
    have hfinal : final ⟨[], [], s.nextId + 1⟩ =
        ({ pushBlock (setSuccessor (s.rootModule M f cs c nf br) c.root cloneHeader) n
          ⟨c.exit, [ret], false⟩ with nextId := s.nextId + 1 } : Module).mapIn clones (Block.mapInsts c.divert) := by
      rw [hpush]
      exact (divert_plan nf hS s cloneHeader (s.nextId + 1)).symm
    rw [hfinal]
    exact h4
  have hS' := hS.map (Block.mapInsts fun i => c.divert (substInst s.subst i)) fun _ => rfl
  have hcs := hS.mem_clones (Block.mapInsts fun i => c.divert (substInst s.subst i)) fun _ => rfl
  rw [foldlM_plan final fun t v => storeOutput_plan nf hS' hcs
    (rootBlock c s cloneHeader).insts ret t v] at e4
  obtain ⟨t, ht, rfl⟩ := Option.map_eq_some_iff.mp e4
  exact ⟨s, t, hroot, ht, rfl, rfl⟩

end Function

/- Numbers of the instructions a plan inserts. -/
def Plan.From (n : Nat) (s : Plan) : Prop := n ≤ s.nextId ∧ ∀ i ∈ s.insts, n ≤ i.id

theorem Plan.From.insertInst {n : Nat} {s : Plan} (h : s.From n) (op : Opcode) (ty : Ty)
    (operands : List Value) : (s.insertInst op ty operands).2.From n := by
  refine ⟨Nat.le_succ_of_le h.1, fun i hi => ?_⟩
  rcases List.mem_append.mp hi with hi | hi
  · exact h.2 i hi
  · rw [List.mem_singleton.mp hi]
    exact h.1

theorem IsAccess.intrinsic? {op : Opcode} (h : IsAccess op) : op.intrinsic? = none := by
  rcases h with rfl | rfl | rfl | rfl <;> rfl

theorem planRoot_from {c : CloneCtx} {n : Nat} {s : Plan} (h : c.planRoot n = some s) :
    s.From n :=
  planRoot_run (P := Plan.From n) ⟨Nat.le_refl n, by simp⟩
    (fun _ _ _ _ hs _ => hs.insertInst ..) (fun _ _ _ hs _ => hs) h

theorem planExit_from {c : CloneCtx} {n : Nat} {t : Plan} (h : c.planExit n = some t) :
    t.From n :=
  planExit_run (P := Plan.From n) ⟨Nat.le_refl n, by simp⟩ (fun _ _ _ hs _ _ _ => hs.insertInst ..) h

/- Only accesses of arguments and stack slots go into the root. -/
theorem planRoot_not_ignored {c : CloneCtx} {n : Nat} {s : Plan} (h : c.planRoot n = some s) :
    ∀ i ∈ s.insts, isIgnoredIntrinsic i = false := by
  refine planRoot_run (P := fun s => ∀ i ∈ s.insts, isIgnoredIntrinsic i = false) (by simp) ?_ ?_ h
  · intro s op ty operands hs hop i hi
    rcases List.mem_append.mp hi with hi | hi
    · exact hs i hi
    · rw [List.mem_singleton.mp hi, isIgnoredIntrinsic, hop.isAccess.intrinsic?]
      rfl
  · intro s src dst hs _
    exact hs

section Finish
variable {M : Module}

theorem extended_mapBlocks (nf : Function) (n : Nat) (g : Block → Block)
    (h : ∀ b ∈ M.blocks, g b = b) :
    (extended M nf n).mapBlocks g = extended M (nf.mapBlocks g) n := by
  simp only [extended, Module.mapBlocks, List.map_append, List.map_cons, List.map_nil,
    Module.mk.injEq, and_true]
  congr 1
  conv_rhs => rw [← List.map_id M.funcs]
  apply List.map_congr_left
  intro k hk
  exact mapBlocks_self k g fun b hb => h b (mem_blocks_of_func hk hb)

theorem extended_find (nf : Function) (n : Nat) (h : ∀ g ∈ M.funcs, g.id ≠ nf.id) :
    (extended M nf n).funcs.find? (fun f => f.id = nf.id) = some nf := by
  simp only [extended, List.find?_append]
  rw [List.find?_eq_none.mpr]
  · simp
  · intro g hg
    simpa using h g hg

/- The blocks of the new function. -/
theorem any_newFunction {c : CloneCtx} (root exit : Block) (hr : root.id = c.root) (he : exit.id = c.exit)
    {cs : List Block} (hids : cs.map Block.id = c.clones) (p : BlockId) :
    (([root, exit] ++ cs).any fun x => x.id = p) = (p = c.root || p = c.exit || p ∈ c.clones) := by
  rw [List.any_append]
  have h1 : ([root, exit].any fun x => x.id = p) = (p = c.root || p = c.exit) := by
    have hr' : decide (root.id = p) = decide (p = c.root) := hr ▸ decide_eq_decide.mpr eq_comm
    have he' : decide (exit.id = p) = decide (p = c.exit) := he ▸ decide_eq_decide.mpr eq_comm
    change (decide (root.id = p) || (decide (exit.id = p) || false)) = _
    rw [hr', he', Bool.or_false]
  have h2 : (cs.any fun x => x.id = p) = decide (p ∈ c.clones) := by
    rw [← hids, Bool.eq_iff_iff]
    simp only [List.any_eq_true, decide_eq_true_eq, List.mem_map]
  rw [h1, h2]

/- The PHIs of the clone of the header get their incoming blocks. -/
theorem extended_redirect {c : CloneCtx} {f : FuncId} {cs : List Block} (hS : Setting M c f cs) (nf : Function)
    (root exit : Block) (hr : root.id = c.root) (he : exit.id = c.exit) (n : Nat) {h : BlockId}
    (hge : M.nextId ≤ h) (hlt : 2 * M.nextId > h) (σ : List (Value × Value)) (vm : ValueMap) :
    (extended M { nf with blocks := [root, exit] ++ cs.map (Block.mapInsts (rewriteInst c σ vm)) } n).mapIn [h]
        (redirectHeaderPHIs (fun p => ([root, exit] ++ cs.map (Block.mapInsts (rewriteInst c σ vm))).any
          fun x => x.id = p) c.root) =
      extended M { nf with blocks := [root, exit] ++ cs.map (rewriteBlock c σ vm h) } n := by
  have hids := (hS.map (Block.mapInsts (rewriteInst c σ vm)) fun _ => rfl).ids
  rw [funext (any_newFunction root exit hr he hids), Module.mapIn]
  simp only [List.mem_singleton]
  rw [extended_mapBlocks]
  · simp only [Function.mapBlocks, List.map_append]
    congr 3
    · conv_rhs => rw [← List.map_id [root, exit]]
      apply List.map_congr_left
      intro b hb
      rw [if_neg, id]
      intro hbh
      have hnew := (exitModule_apart nf hS root exit hr he).new_ge b hb
      omega
    · rw [List.map_map]
      rfl
  · intro b hb
    rw [if_neg]
    intro hbh
    have := hS.wf.blocks_lt b hb
    omega

theorem redirectHeaderPHIs_shape (inNew : BlockId → Bool) (root : BlockId) (b : Block) :
    (redirectHeaderPHIs inNew root b).insts.map (fun i => (i.id, i.op)) =
      b.insts.map fun i => (i.id, i.op) := by
  simp only [redirectHeaderPHIs, List.map_append, List.map_map]
  conv_rhs => rw [← List.takeWhile_append_dropWhile (p := Inst.isPHI) (l := b.insts), List.map_append]
  rfl

theorem rewriteBlock_shape (c : CloneCtx) (σ : List (Value × Value)) (vm : ValueMap)
    (cloneHeader : BlockId) (b : Block) :
    (rewriteBlock c σ vm cloneHeader b).insts.map (fun i => (i.id, i.op)) =
      b.insts.map fun i => (i.id, i.op) := by
  have hmap : (b.mapInsts (rewriteInst c σ vm)).insts.map (fun i => (i.id, i.op)) =
      b.insts.map fun i => (i.id, i.op) := by
    simp only [Block.mapInsts, List.map_map]
    rfl
  unfold rewriteBlock
  dsimp only
  split
  · rw [redirectHeaderPHIs_shape, hmap]
  · exact hmap

theorem rewriteBlock_ids (c : CloneCtx) (σ : List (Value × Value)) (vm : ValueMap)
    (cloneHeader : BlockId) (cs : List Block) :
    ((cs.map (rewriteBlock c σ vm cloneHeader)).flatMap Block.insts).map Inst.id =
      (cs.flatMap Block.insts).map Inst.id := by
  simp only [List.flatMap_map, List.map_flatMap]
  congr 1
  funext b
  have h := congrArg (List.map Prod.fst) (rewriteBlock_shape c σ vm cloneHeader b)
  simpa only [List.map_map, Function.comp_def] using h

theorem rewriteBlock_id (c : CloneCtx) (σ : List (Value × Value)) (vm : ValueMap)
    (cloneHeader : BlockId) (b : Block) : (rewriteBlock c σ vm cloneHeader b).id = b.id := by
  unfold rewriteBlock
  dsimp only
  split <;> rfl

/- Erasing by number among blocks with distinct numbers is erasing by kind. -/
theorem keepInsts_eq {bs : List Block} {E : List InstId}
    (hnd : ((bs.flatMap Block.insts).map Inst.id).Nodup)
    (hE : ∀ n, n ∈ E ↔ ∃ i ∈ bs.flatMap Block.insts, isIgnoredIntrinsic i = true ∧ i.id = n) :
    ∀ b ∈ bs, keepInsts E b = dropIgnored b := by
  intro b hb
  simp only [keepInsts, dropIgnored, Block.mk.injEq, true_and, and_true]
  apply List.filter_congr
  intro i hi
  have him : i ∈ bs.flatMap Block.insts := List.mem_flatMap.mpr ⟨b, hb, hi⟩
  cases hig : isIgnoredIntrinsic i with
  | true =>
    have hin : i.id ∈ E := (hE i.id).mpr ⟨i, him, hig, rfl⟩
    simp [hin]
  | false =>
    have hout : i.id ∉ E := by
      intro hm
      obtain ⟨j, hj, hjg, hid⟩ := (hE i.id).mp hm
      have hij : j = i := List.inj_on_of_nodup_map hnd hj him hid
      rw [hij, hig] at hjg
      cases hjg
    simp [hout]

end Finish

section Start
variable {M : Module} {bs : List BlockId}

theorem region_ids (hbs : ∀ b ∈ bs, ∃ x ∈ M.blocks, x.id = b) (hM : M.WF) :
    (M.region bs).map Block.id = bs := by
  induction bs with
  | nil => rfl
  | cons b bs ih =>
    obtain ⟨x, hx, rfl⟩ := hbs b (List.mem_cons_self ..)
    have hrest := ih fun c hc => hbs c (List.mem_cons_of_mem _ hc)
    rw [Module.region, List.filterMap_cons, block?_mem hM.toIds hx]
    exact congrArg (x.id :: ·) hrest

theorem regionInsts_nodup (hM : M.WF) (hnd : bs.Nodup) :
    ((M.regionInsts bs).map Inst.id).Nodup := by
  have hregion : (M.region bs).Nodup :=
    List.Nodup.of_map Block.id ((region_ids_sublist M bs).nodup hnd)
  have hsub : M.region bs ⊆ M.blocks := fun b hb => ((mem_region hM.toIds).mp hb).1
  obtain ⟨l, hperm, hl⟩ := List.subperm_of_subset hregion hsub
  have hlsub : List.Sublist ((l.flatMap Block.insts).map Inst.id) (M.insts.map Inst.id) := by
    exact (hl.flatMap Block.insts).map Inst.id
  have hnd' := hlsub.nodup hM.insts_nodup
  exact ((hperm.flatMap_right Block.insts).map Inst.id).nodup_iff.mp hnd'

theorem Clones.start (hM : M.WF) (hnd : bs.Nodup) (hbs : ∀ b ∈ bs, ∃ x ∈ M.blocks, x.id = b) :
    Clones M bs ((M.region bs).map (cloneBasicBlock M.nextId)) (2 * M.nextId) (cloneMap M bs) := by
  have hflat : ((M.region bs).map (cloneBasicBlock M.nextId)).flatMap Block.insts =
      (M.regionInsts bs).map (cloneInst M.nextId) := by
    simp only [List.flatMap_map, Module.regionInsts, List.map_flatMap, cloneBasicBlock]
  have hmem : ∀ i ∈ M.regionInsts bs, i ∈ M.insts := by
    intro i hi
    obtain ⟨b, hb, hib⟩ := List.mem_flatMap.mp hi
    exact List.mem_flatMap.mpr ⟨b, ((mem_region hM.toIds).mp hb).1, hib⟩
  constructor
  · have hids := region_ids hbs hM
    conv_rhs => rw [← hids]
    rw [List.map_map, List.map_map]
    rfl
  · intro i hi
    rw [hflat] at hi
    obtain ⟨j, -, rfl⟩ := List.mem_map.mp hi
    exact Nat.le_add_right ..
  · intro i hi
    rw [hflat] at hi
    obtain ⟨j, hj, rfl⟩ := List.mem_map.mp hi
    have := hM.insts_lt j (hmem j hj)
    simp only [cloneInst]
    omega
  · have hids : ((M.regionInsts bs).map (cloneInst M.nextId)).map Inst.id =
        ((M.regionInsts bs).map Inst.id).map (M.nextId + ·) := by
      rw [List.map_map, List.map_map]
      rfl
    rw [hflat, hids]
    exact (regionInsts_nodup hM hnd).map fun a b hab => Nat.add_left_cancel hab
  · exact Nat.le_refl _
  · rfl
  · intro v w hw
    cases v with
    | inst i t =>
      simp only [cloneMap] at hw
      split at hw
      · cases hw
        exact ⟨_, t, rfl, Nat.le_add_right ..⟩
      · cases hw
    | const _ => cases hw
    | func _ => cases hw
    | global _ _ _ => cases hw
    | arg _ _ _ => cases hw
  · intro v
    rfl

theorem Clones.setting (hM : M.WF) {f : FuncId} (hf : f ∈ M.funcs.map Function.id) {ce : CodeExtractor}
    (hbs : ∀ b ∈ ce.blocks.elems, ∃ x ∈ M.blocks, x.id = b) {cs : List Block} {n : Nat}
    {vm : ValueMap} (h : Clones M ce.blocks.elems cs n vm) :
    Setting M (cloneCtx ce (ce.blocks.elems.map fun b => M.nextId + b) n) f cs := by
  have hn := h.nextId_ge
  refine ⟨hM, hf, h.ids, ?_, ?_, ?_, ?_, ?_, ?_, ?_⟩
  · exact ce.blocks.nodup.map fun a b hab => Nat.add_left_cancel hab
  · intro x hx
    obtain ⟨b, -, rfl⟩ := List.mem_map.mp hx
    exact Nat.le_add_right ..
  · intro x hx
    obtain ⟨b, hb, rfl⟩ := List.mem_map.mp hx
    obtain ⟨y, hy, rfl⟩ := hbs b hb
    have := hM.blocks_lt y hy
    omega
  · change 2 * M.nextId ≤ n + 1
    omega
  · change 2 * M.nextId ≤ n + 2
    omega
  · change n + 1 ≠ n + 2
    omega
  · exact hn

end Start

section Erase
variable {M : Module} {bs clones : List BlockId} {ce : CodeExtractor} {cs : List Block} {n : Nat}
  {vm : ValueMap} {s t : Plan}

theorem keepInsts_of_notMem {E : List InstId} {b : Block} (h : ∀ i ∈ b.insts, i.id ∉ E) :
    keepInsts E b = b := by
  have hfilter : b.insts.filter (fun x => x.id ∉ E) = b.insts := by
    rw [List.filter_eq_self]
    intro i hi
    simpa using h i hi
  rw [keepInsts, hfilter]

theorem root_insts {c : CloneCtx} (hroot : c.planRoot (n + 4) = some s) (hc : c.newFunction = n)
    (cloneHeader : BlockId) :
    ∀ i ∈ (rootBlock c s cloneHeader).insts, n ≤ i.id ∧ isIgnoredIntrinsic i = false := by
  intro i hi
  rcases List.mem_append.mp hi with hi | hi
  · have := (planRoot_from hroot).2 i hi
    exact ⟨by omega, planRoot_not_ignored hroot i hi⟩
  · rw [List.mem_singleton.mp hi]
    refine ⟨?_, rfl⟩
    simp only [Inst.uncondBr, hc]
    omega

theorem exit_insts (vm : ValueMap) {c : CloneCtx} (hroot : c.planRoot (n + 4) = some s)
    (hexit : c.planExit (s.nextId + 1) = some t) :
    ∀ i ∈ (exitBlock c s t vm).insts, n ≤ i.id ∧ isIgnoredIntrinsic i = false := by
  have hs := (planRoot_from hroot).1
  intro i hi
  rcases List.mem_append.mp hi with hi | hi
  · obtain ⟨j, hj, rfl⟩ := List.mem_map.mp hi
    have h1 := (planExit_from hexit).2 j hj
    have h2 := planExit_store c _ t hexit j hj
    refine ⟨?_, ?_⟩
    · simp only [remapInstruction]
      omega
    · simp only [isIgnoredIntrinsic, remapInstruction, h2]
      rfl
  · rw [List.mem_singleton.mp hi]
    refine ⟨?_, rfl⟩
    simp only [retInst]
    omega

theorem Clones.rewrite_ids (h : Clones M bs cs n vm) (c : CloneCtx) (σ : List (Value × Value))
    (cloneHeader : BlockId) :
    ∀ i ∈ (cs.map (rewriteBlock c σ vm cloneHeader)).flatMap Block.insts,
      M.nextId ≤ i.id ∧ i.id < n := by
  intro i hi
  have hm : i.id ∈ (cs.flatMap Block.insts).map Inst.id := by
    rw [← rewriteBlock_ids c σ vm cloneHeader]
    exact List.mem_map_of_mem hi
  obtain ⟨j, hj, he⟩ := List.mem_map.mp hm
  rw [← he]
  exact ⟨h.insts_ge j hj, h.insts_lt j hj⟩

/- What the eraser collects from the new function are ignored intrinsics among the clones. -/
theorem toRemove_spec (nf : Function) {c : CloneCtx} (hroot : c.planRoot (n + 4) = some s)
    (hc : c.newFunction = n) (hexit : c.planExit (s.nextId + 1) = some t) (cloneHeader : BlockId)
    (hnf : nf.blocks = [rootBlock c s cloneHeader, exitBlock c s t vm] ++
      cs.map (rewriteBlock c s.subst vm cloneHeader)) (k : InstId) :
    k ∈ toRemove nf ↔ ∃ i ∈ (cs.map (rewriteBlock c s.subst vm cloneHeader)).flatMap Block.insts,
      isIgnoredIntrinsic i = true ∧ i.id = k := by
  have hr := root_insts hroot hc cloneHeader
  have he := exit_insts vm hroot hexit
  simp only [toRemove, Function.insts, hnf, List.mem_map, List.mem_filter, List.flatMap_append,
    List.flatMap_cons, List.flatMap_nil, List.append_nil, List.mem_append]
  constructor
  · rintro ⟨i, ⟨(hi | hi) | hi, hig⟩, hid⟩
    · rw [(hr i hi).2] at hig
      cases hig
    · rw [(he i hi).2] at hig
      cases hig
    · exact ⟨i, hi, hig, hid⟩
  · rintro ⟨i, hi, hig, hid⟩
    exact ⟨i, ⟨.inr hi, hig⟩, hid⟩

/- The new function after the eraser. -/
theorem keepInsts_new (nf : Function) {c : CloneCtx} (hC : Clones M bs cs n vm)
    (hroot : c.planRoot (n + 4) = some s) (hc : c.newFunction = n)
    (hexit : c.planExit (s.nextId + 1) = some t) (cloneHeader : BlockId)
    (hnf : nf.blocks = [rootBlock c s cloneHeader, exitBlock c s t vm] ++
      cs.map (rewriteBlock c s.subst vm cloneHeader)) :
    nf.blocks.map (keepInsts (toRemove nf)) =
      [rootBlock c s cloneHeader, exitBlock c s t vm] ++
        cs.map (finishBlock c s.subst vm cloneHeader) := by
  have hE := toRemove_spec nf hroot hc hexit cloneHeader hnf
  have hlt : ∀ k ∈ toRemove nf, n > k := by
    intro k hk
    obtain ⟨i, hi, -, rfl⟩ := (hE k).mp hk
    exact (hC.rewrite_ids c s.subst cloneHeader i hi).2
  have hkeep : ∀ b : Block, (∀ i ∈ b.insts, n ≤ i.id) → keepInsts (toRemove nf) b = b := by
    intro b hb
    refine keepInsts_of_notMem fun i hi hm => ?_
    have h1 := hb i hi
    have h2 := hlt i.id hm
    omega
  have hnd : (((cs.map (rewriteBlock c s.subst vm cloneHeader)).flatMap Block.insts).map
      Inst.id).Nodup := by
    rw [rewriteBlock_ids]
    exact hC.insts_nodup
  rw [hnf, List.map_append, List.map_cons, List.map_cons, List.map_nil,
    hkeep _ fun i hi => (root_insts hroot hc cloneHeader i hi).1,
    hkeep _ fun i hi => (exit_insts vm hroot hexit i hi).1, List.map_map]
  congr 1
  apply List.map_congr_left
  intro b hb
  exact keepInsts_eq hnd hE _ (List.mem_map_of_mem hb)

/- Erasing takes the ignored intrinsics out of the clones. -/
theorem eraseAll_new {M N : Module} (hM : M.WF) (nf : Function) {c : CloneCtx} (hC : Clones M bs cs n vm)
    (hroot : c.planRoot (n + 4) = some s) (hc : c.newFunction = n)
    (hexit : c.planExit (s.nextId + 1) = some t) (cloneHeader : BlockId)
    (hnf : nf.blocks = [rootBlock c s cloneHeader, exitBlock c s t vm] ++
      cs.map (rewriteBlock c s.subst vm cloneHeader)) {m : Nat}
    (h : eraseAll (extended M nf m) (toRemove nf) = some N) :
    N = extended M
      { nf with
        blocks := [rootBlock c s cloneHeader, exitBlock c s t vm] ++
          cs.map (finishBlock c s.subst vm cloneHeader) } m := by
  have hkeep : ∀ b ∈ M.blocks, keepInsts (toRemove nf) b = b := by
    intro b hb
    refine keepInsts_of_notMem fun i hi hmem => ?_
    obtain ⟨j, hj, -, hid⟩ := (toRemove_spec nf hroot hc hexit cloneHeader hnf i.id).mp hmem
    have h1 := (hC.rewrite_ids c s.subst cloneHeader j hj).1
    have h2 := hM.insts_lt i (List.mem_flatMap.mpr ⟨b, hb, hi⟩)
    omega
  rw [eraseAll_eq _ _ _ h, extended_mapBlocks _ _ _ hkeep, Function.mapBlocks,
    keepInsts_new nf hC hroot hc hexit cloneHeader hnf]

end Erase

/-- A finished run of `cloneSevered`: the clones as they are after flattening, `VMap`,
and the plans of the root and the exit. -/
structure Cloned (ce : CodeExtractor) (M : Module) (header : BlockId) (old : Function) where
  clones : List Block
  n : Nat
  vm : ValueMap
  root : Plan
  exit : Plan
  wf : M.WF
  old_mem : old.id ∈ M.funcs.map Function.id
  exist : ∀ b ∈ ce.blocks.elems, ∃ x ∈ M.blocks, x.id = b
  header_mem : header ∈ ce.blocks
  flattened : flattenAccesses ce (cloneBlocks M ce.blocks.elems old.id)
    (cloneMap M ce.blocks.elems) = some (clonedModule M old.id clones n, vm)
  numbers : Clones M ce.blocks.elems clones n vm
  root_eq : (cloneCtx ce (ce.blocks.elems.map fun b => M.nextId + b) n).planRoot (n + 4) = some root
  exit_eq : (cloneCtx ce (ce.blocks.elems.map fun b => M.nextId + b) n).planExit (root.nextId + 1) =
    some exit

namespace Cloned
variable {ce : CodeExtractor} {M : Module} {header : BlockId} {old : Function}
  (k : Cloned ce M header old)

def ctx : CloneCtx := cloneCtx ce (ce.blocks.elems.map fun b => M.nextId + b) k.n

/- The new function with the clones as `g` leaves them. -/
def functionWith (g : CloneCtx → List (Value × Value) → ValueMap → BlockId → Block → Block) :
    Function where
  id := k.n
  params := k.ctx.paramsOf M
  isVarArg := ce.allowVarArgs && old.isVarArg
  blocks := [rootBlock k.ctx k.root (M.nextId + header), exitBlock k.ctx k.root k.exit k.vm] ++
    k.clones.map (g k.ctx k.root.subst k.vm (M.nextId + header))

def newFunction : Function := k.functionWith finishBlock

/- The module before the ignored intrinsics are erased. -/
def beforeErase : Module := extended M (k.functionWith rewriteBlock) k.exit.nextId

def result : Module := extended M k.newFunction k.exit.nextId

include k in
/-- What flattening keeps holds of the clones. -/
theorem flatten_run {P : List InstId → List Block → Nat → ValueMap → Prop}
    (h0 : P [] ((M.region ce.blocks.elems).map (cloneBasicBlock M.nextId)) (2 * M.nextId)
      (cloneMap M ce.blocks.elems))
    (hskip : ∀ pre access cs n vm, access ∈ ce.toFlatten → Clones M ce.blocks.elems cs n vm →
      P pre cs n vm → Skips old.id M cs n vm access → P (pre ++ [access]) cs n vm)
    (hplace : ∀ pre access cs n vm gep g new, access ∈ ce.toFlatten → Clones M ce.blocks.elems cs n vm →
      P pre cs n vm → Places old.id M cs n vm access gep g new →
      P (pre ++ [access]) (cs.map (placeGEP gep new.insts g)) new.nextId (vm.follow gep.val g)) :
    P ce.toFlatten k.clones k.n k.vm := by
  have hfl := k.flattened
  rw [cloneBlocks_eq] at hfl
  obtain ⟨cs, n, heq, -, hP⟩ := flattenAccesses_run old.id k.wf
    (Clones.start k.wf ce.blocks.nodup k.exist) h0 hskip hplace hfl
  obtain ⟨rfl, rfl⟩ := clonedModule_inj k.old_mem heq
  exact hP

end Cloned

/-- `cloneSevered` extends the module by one function. -/
theorem cloneSevered_cloned {ce : CodeExtractor} {M : Module} {header : BlockId} {old : Function}
    (hM : M.WF) (hf : old.id ∈ M.funcs.map Function.id)
    (hbs : ∀ b ∈ ce.blocks.elems, ∃ x ∈ M.blocks, x.id = b) {r : Module × FuncId}
    (h : cloneSevered ce M header old = some r) :
    ∃ k : Cloned ce M header old, r = (k.result, k.n) ∧
      eraseAll k.beforeErase (toRemove (k.functionWith rewriteBlock)) = some k.result := by
  set bs := ce.blocks.elems with hbsdef
  unfold cloneSevered at h
  obtain ⟨cloneHeader, hch, h⟩ := Option.bind_eq_some_iff.mp h
  obtain ⟨⟨M₁, vm⟩, hfl, h⟩ := Option.bind_eq_some_iff.mp h
  obtain ⟨⟨c', M₂⟩, hfun, h⟩ := Option.bind_eq_some_iff.mp h
  obtain ⟨nf₁, hnf1, h⟩ := Option.bind_eq_some_iff.mp h
  obtain ⟨nf₂, hnf2, h⟩ := Option.bind_eq_some_iff.mp h
  obtain ⟨M₃, herase, h⟩ := Option.bind_eq_some_iff.mp h
  obtain rfl : (M₃, c'.newFunction) = r := Option.some.inj h
  have hheader : header ∈ ce.blocks ∧ cloneHeader = M.nextId + header := by
    simp only [cloneMap] at hch
    split at hch
    · next hm => exact ⟨hm, (Option.some.inj hch).symm⟩
    · cases hch
  obtain ⟨hheader, rfl⟩ := hheader
  have hflat := hfl
  rw [cloneBlocks_eq] at hflat
  obtain ⟨cs, n, rfl, hC, -⟩ := flattenAccesses_run old.id hM (P := fun _ _ _ _ => True)
    (Clones.start hM ce.blocks.nodup hbs) trivial (fun _ _ _ _ _ _ _ _ _ => trivial)
    (fun _ _ _ _ _ _ _ _ _ _ _ _ => trivial) hflat
  have hS := hC.setting hM hf hbs
  set c := cloneCtx ce (bs.map fun b => M.nextId + b) n with hcdef
  obtain ⟨s, t, hroot, hexit, hc', hM₂⟩ := cloneFunction_eq hS hfun
  dsimp only at hc' hM₂ hnf1 hnf2 herase
  subst hc'
  set nf : Function := ⟨n, c.paramsOf M, ce.allowVarArgs && old.isVarArg, []⟩ with hnf
  set root := rootBlock c s (M.nextId + header) with hrootB
  set exit := exitBlock c s t vm with hexitB
  have hr : root.id = c.root := rfl
  have he : exit.id = c.exit := rfl
  have hA := exitModule_apart nf hS root exit hr he
  -- the exit block and the clones are remapped and moved to the new function
  set cs₂ := cs.map (Block.mapInsts (rewriteInst c s.subst vm)) with hcs₂
  have hS₂ : Setting M c old.id cs₂ := hS.map _ fun _ => rfl
  have hmoved : moveBlocksToFunction ((M₂.mapIn [c.exit] (remapExit vm)).mapIn c.clones
      (Block.mapInsts (remapInstruction vm))) c.clones old.id c.newFunction =
      extended M { nf with blocks := [root, exit] ++ cs₂ } t.nextId := by
    have hnd : ([root, exit].map Block.id).Nodup := by
      simp only [List.map_cons, List.map_nil, List.nodup_cons, List.mem_singleton, List.not_mem_nil,
        not_false_eq_true, List.nodup_nil, and_true]
      exact hS.root_ne_exit
    have hS₁ := hS.map (Block.mapInsts fun i => c.divert (substInst s.subst i)) fun _ => rfl
    have hremap := remapExit_plan nf hS₁ s t hexit vm (M.nextId + header)
    rw [hM₂, hremap, remapClones_plan _ hS hA]
    exact staged_move old.id cs₂ t.nextId hM hA hf hS₂.ids hS₂.nodup hnd hS.new_function
  change (moveBlocksToFunction ((M₂.mapIn [c.exit] (remapExit vm)).mapIn c.clones
    (Block.mapInsts (remapInstruction vm))) c.clones old.id c.newFunction).funcs.find?
      (fun f => f.id = c.newFunction) = some nf₁ at hnf1
  rw [hmoved] at hnf1
  have hnf1' : { nf with blocks := [root, exit] ++ cs₂ } = nf₁ :=
    Option.some.inj ((extended_find _ _ hS.new_function).symm.trans hnf1)
  subst hnf1'
  -- incoming blocks of the header's PHIs
  set cs₃ := cs.map (rewriteBlock c s.subst vm (M.nextId + header)) with hcs₃
  have hlt : 2 * M.nextId > M.nextId + header := by
    obtain ⟨y, hy, hyh⟩ := hbs header hheader
    have := hM.blocks_lt y hy
    omega
  have hredirect := extended_redirect hS nf root exit hr he t.nextId (Nat.le_add_right _ header) hlt
    s.subst vm
  have hfound : (extended M { nf with blocks := [root, exit] ++ cs₃ } t.nextId).funcs.find?
      (fun f => f.id = c.newFunction) = some nf₂ := by
    rw [← hredirect, ← hmoved]
    exact hnf2
  have hnf2' : { nf with blocks := [root, exit] ++ cs₃ } = nf₂ :=
    Option.some.inj ((extended_find _ _ hS.new_function).symm.trans hfound)
  have herased : eraseAll (extended M { nf with blocks := [root, exit] ++ cs₃ } t.nextId)
      (toRemove { nf with blocks := [root, exit] ++ cs₃ }) = some M₃ := by
    rw [hnf2', ← hnf2', ← hredirect, hnf2', ← hmoved]
    exact herase
  have hresult := eraseAll_new hM _ hC hroot rfl hexit (M.nextId + header) rfl herased
  refine ⟨⟨cs, n, vm, s, t, hM, hf, hbs, hheader, hfl, hC, hroot, hexit⟩, ?_, ?_⟩
  · exact congrArg (fun N : Module => (N, n)) hresult
  · exact herased.trans (congrArg some hresult)

end Atrox
