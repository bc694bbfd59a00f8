import Atrox.Transforms.NewFunction
import Atrox.Transforms.SeveredUses

/-!
# Stores of the exit block

Parameters are made from the outputs, stores from the bidirectional inputs. Which
outputs are written back before the new function returns, which it does in one place.
-/

namespace Atrox
open IR Lib

section Plan
variable {c : CloneCtx}

/- An instruction of the exit stores the scalar output of a bidirectional input. -/
theorem planExit_stores {n : Nat} {t : Plan} (h : c.planExit n = some t) :
    ∀ i ∈ t.insts, i.op = .store ∧ ∃ v ∈ c.bidirectional, ∃ outv arg, c.outputOf v = some (outv, arg) ∧
      outv.ty.isPointerTy = false ∧ i.operands = [outv, arg] := by
  refine planExit_run (P := fun t : Plan => ∀ i ∈ t.insts, i.op = .store ∧ ∃ v ∈ c.bidirectional,
    ∃ outv arg, c.outputOf v = some (outv, arg) ∧ outv.ty.isPointerTy = false ∧
      i.operands = [outv, arg]) (by simp) ?_ h
  intro s v r hs hv hr hty i hi
  rcases List.mem_append.mp hi with hi | hi
  · exact hs i hi
  · rw [List.mem_singleton.mp hi]
    exact ⟨rfl, v, hv, r.1, r.2, hr, hty, rfl⟩

/- Every scalar output of a bidirectional input has its store. -/
theorem planExit_stored {n : Nat} {t : Plan} (h : c.planExit n = some t) {v : Value}
    (hv : v ∈ c.bidirectional) : ∃ outv arg, c.outputOf v = some (outv, arg) ∧
      (outv.ty.isPointerTy = false → ∃ i ∈ t.insts, i.op = .store ∧ i.operands = [outv, arg]) := by
  refine foldlM_run (P := fun pre (t : Plan) => ∀ w ∈ pre, ∃ outv arg, c.outputOf w = some (outv, arg) ∧
    (outv.ty.isPointerTy = false → ∃ i ∈ t.insts, i.op = .store ∧ i.operands = [outv, arg]))
    c.bidirectional ?_ (by simp) h v hv
  intro pre w post s s' _ hs hstep x hx
  obtain ⟨⟨outv, arg⟩, hr, hstep⟩ := Option.bind_eq_some_iff.mp hstep
  dsimp only at hstep
  have hnew : (outv.ty.isPointerTy = true ∧ s' = s) ∨
      s' = (s.insertInst .store .void [outv, arg]).2 := by
    split at hstep
    · next hty =>
      cases hstep
      exact .inl ⟨hty, rfl⟩
    · split at hstep
      · cases hstep
        exact .inr rfl
      · cases hstep
  rcases List.mem_append.mp hx with hx | hx
  · obtain ⟨o, a, ho, hst⟩ := hs x hx
    refine ⟨o, a, ho, fun hty => ?_⟩
    obtain ⟨i, hi, hi'⟩ := hst hty
    rcases hnew with ⟨-, rfl⟩ | rfl
    · exact ⟨i, hi, hi'⟩
    · exact ⟨i, List.mem_append_left _ hi, hi'⟩
  · rw [List.mem_singleton.mp hx]
    refine ⟨outv, arg, hr, fun hty => ?_⟩
    rcases hnew with ⟨hty', -⟩ | rfl
    · rw [hty] at hty'
      cases hty'
    · exact ⟨_, List.mem_append_right _ (List.mem_singleton_self _), rfl, rfl⟩

end Plan

/- In front of every return, in its block, the value is stored through the parameter `i`. -/
def StoredBeforeReturn (F : Function) (w : Value) (i : Nat) : Prop :=
  ∀ b ∈ F.blocks, ∀ pre r post, b.insts = pre ++ r :: post → r.op = .ret →
    ∃ st ∈ pre, st.op = .store ∧ ∃ t, st.operands = [w, .arg F.id i t]

/- The function returns at the end of one block, the second one, and every edge that leaves the region leads there. -/
structure ReturnsThrough (F : Function) (M : Module) (blocks : SetVector BlockId) (exit : Block) : Prop where
  second : F.blocks[1]? = some exit
  returns : ∃ pre r, exit.insts = pre ++ [r] ∧ r.op = .ret
  only : ∀ b ∈ F.blocks, ∀ r ∈ b.insts, r.op = .ret → b = exit
  leaving : ∀ b ∈ M.region blocks.elems, ∀ s ∈ b.succs, s ∉ blocks →
    ∃ c ∈ F.blocks, c.id = M.nextId + b.id ∧ exit.id ∈ c.succs

/- Some bidirectional input is mapped to the output with the number `i`; one without an entry counts as mapped to the
first. -/
def MappedTo (ce : CodeExtractor) (i : Nat) : Prop :=
  ∃ v ∈ ce.inputs, ce.isBidirectional v = true ∧ (ce.inputToOutputMap.lookup v).getD 0 = i

section Store
variable {ce : CodeExtractor} {M : Module} {header : BlockId} {old : Function}
  (k : Cloned ce M header old)

theorem Cloned.mem_bidirectional {v : Value} :
    v ∈ k.ctx.bidirectional ↔ v ∈ ce.inputs ∧ ce.isBidirectional v = true := List.mem_filter

theorem Piece.not_ret {accesses : List InstId} {i : Inst} {is : List Inst} {v : Option Value}
    (h : Piece M accesses i is v) (hop : i.op ≠ .ret) : ∀ j ∈ is, j.op ≠ .ret := by
  intro j hj
  cases h with
  | copy =>
    rw [List.mem_singleton.mp hj]
    exact hop
  | flat base r idx n new _ _ _ _ hnew =>
    obtain ⟨hclosed, -⟩ := flattenGEP_closed (S := fun _ => True) (fun _ => trivial) trivial
      (fun _ _ => trivial) hnew
    rcases hclosed.ops j hj with h | h | h | h <;> simp [h]

/- Nothing in front of the end of the exit returns, and nothing in the root. -/
theorem Cloned.root_not_ret : ∀ i ∈ (rootBlock k.ctx k.root (M.nextId + header)).insts, i.op ≠ .ret := by
  have hplan : ∀ i ∈ k.root.insts, i.op ≠ .ret := by
    refine planRoot_run (P := fun s => ∀ i ∈ s.insts, i.op ≠ .ret) (by simp) ?_ (fun _ _ _ hs _ => hs) k.root_eq
    intro s op ty operands hs hnew i hi
    rcases List.mem_append.mp hi with hi | hi
    · exact hs i hi
    · rw [List.mem_singleton.mp hi]
      rcases hnew.isAccess with rfl | rfl | rfl | rfl <;> simp
  intro i hi
  rcases List.mem_append.mp hi with hi | hi
  · exact hplan i hi
  · rw [List.mem_singleton.mp hi]
    simp [Inst.uncondBr]

theorem Cloned.exit_not_ret : ∀ i ∈ k.exit.insts.map (remapInstruction k.vm), i.op ≠ .ret := by
  intro i hi
  obtain ⟨j, hj, rfl⟩ := List.mem_map.mp hi
  have hop : (remapInstruction k.vm j).op = .store := (planExit_stores k.exit_eq j hj).1
  simp [hop]

/- The one return stands behind the stores of the exit. -/
theorem Cloned.exit_return {pre post : List Inst} {r : Inst}
    (h : (exitBlock k.ctx k.root k.exit k.vm).insts = pre ++ r :: post) (hop : r.op = .ret) :
    pre = k.exit.insts.map (remapInstruction k.vm) := by
  have hret : post = [] := by
    by_contra hne
    obtain ⟨xs, x, rfl⟩ := (List.eq_nil_or_concat' post).resolve_left hne
    have hstores : k.exit.insts.map (remapInstruction k.vm) = pre ++ r :: xs := by
      have h' : k.exit.insts.map (remapInstruction k.vm) ++ [retInst k.root.nextId] = (pre ++ r :: xs) ++ [x] := by
        rw [List.append_assoc]
        exact h
      exact List.append_inj_left' h' rfl
    exact k.exit_not_ret r (by rw [hstores]; simp) hop
  subst hret
  exact (List.append_inj_left' h rfl).symm

/- The new function returns through its exit when the region does not return. -/
theorem Cloned.returnsThrough (hacc : ∀ a ∈ ce.toFlatten, M.nextId > a)
    (hterm : ∀ b ∈ M.region ce.blocks.elems, b.Terminated) (hret : ∀ i ∈ M.regionInsts ce.blocks.elems, i.op ≠ .ret) :
    ReturnsThrough k.newFunction M ce.blocks (exitBlock k.ctx k.root k.exit k.vm) := by
  obtain ⟨g, hg⟩ := k.shape hacc
  refine ⟨rfl, ⟨_, _, rfl, rfl⟩, ?_, ?_⟩
  · intro b hb r hr hop
    rcases k.block_inv hg hb with rfl | rfl | ⟨x, hx, rfl⟩
    · exact absurd hop (k.root_not_ret r hr)
    · rfl
    · obtain ⟨j, hj, -, hcore⟩ := finishBlock_mem _ _ _ _ hr
      obtain ⟨i, hi, hji⟩ := List.mem_flatMap.mp hj
      have him : i ∈ M.regionInsts ce.blocks.elems := List.mem_flatMap.mpr ⟨x, hx, hi⟩
      have hrj : r.op = j.op := (op_of_core hcore).trans rfl
      exact absurd (hrj.symm.trans hop) ((hg.piece i him).not_ret (hret i him) j hji)
  · intro b hb s hs hout
    refine ⟨k.finish g b, ?_, k.finish_id g b, ?_⟩
    · rw [k.blocks_eq hg]
      exact List.mem_append_right _ (List.mem_map_of_mem hb)
    · rw [k.finish_succs hg hb (hterm b hb)]
      have htarget : k.target s = (exitBlock k.ctx k.root k.exit k.vm).id := if_neg hout
      exact htarget ▸ List.mem_map_of_mem hs

/- A scalar output is written back exactly when it is cloned and some input is mapped to it. -/
theorem Cloned.stored_iff (hret : ReturnsThrough k.newFunction M ce.blocks (exitBlock k.ctx k.root k.exit k.vm))
    {o : Value} {i : Nat} (ho : ce.outputs.elems[i]? = some o) (hty : o.ty.isPointerTy = false) :
    (∃ w, k.vm.val o = some w ∧ StoredBeforeReturn k.newFunction w (ce.getPureInputs.length + i)) ↔
      definedInRegion M ce.blocks o = true ∧ MappedTo ce i := by
  have hexit : k.ctx.planExit (k.root.nextId + 1) = some k.exit := k.exit_eq
  constructor
  · rintro ⟨w, hw, hall⟩
    refine ⟨k.vm_isSome.mp (by rw [hw]; rfl), ?_⟩
    obtain ⟨st, hst, -, t, hops⟩ := hall _ (List.mem_of_getElem? hret.second) _ _ [] rfl rfl
    obtain ⟨j, hj, rfl⟩ := List.mem_map.mp hst
    obtain ⟨-, v, hv, outv, arg, hov, -, hjops⟩ := planExit_stores hexit j hj
    obtain ⟨-, t', rfl⟩ := outputOf_spec hov
    have hrem : (remapInstruction k.vm j).operands =
        [(k.vm.val outv).getD outv, .arg k.n (k.ctx.usedInputs.length + k.ctx.outputIndex v) t'] := by
      simp only [remapInstruction, hjops, List.map_cons, List.map_nil, k.vm_arg, Option.getD_none]
      rfl
    rw [hrem] at hops
    simp only [List.cons.injEq, Value.arg.injEq, and_true] at hops
    obtain ⟨hvin, hvb⟩ := k.mem_bidirectional.mp hv
    exact ⟨v, hvin, hvb, Nat.add_left_cancel hops.2.2.1⟩
  · rintro ⟨hdef, v, hv, hvb, hidx⟩
    obtain ⟨w, hw⟩ := Option.isSome_iff_exists.mp (k.vm_isSome.mpr hdef)
    obtain ⟨outv, arg, hov, hstore⟩ := planExit_stored hexit (k.mem_bidirectional.mpr ⟨hv, hvb⟩)
    obtain ⟨hout, t, rfl⟩ := outputOf_spec hov
    have hi : k.ctx.outputIndex v = i := hidx
    rw [hi] at hout hstore
    obtain rfl : o = outv := Option.some.inj (ho.symm.trans hout)
    obtain ⟨j, hj, hop, hops⟩ := hstore hty
    refine ⟨w, hw, fun b hb pre r post hsplit hr => ⟨remapInstruction k.vm j, ?_, hop, t, ?_⟩⟩
    · -- the block is the exit, and the stores are all in front of its return
      obtain rfl := hret.only b hb r (by rw [hsplit]; simp) hr
      rw [k.exit_return hsplit hr]
      exact List.mem_map_of_mem hj
    · simp only [remapInstruction, hops, List.map_cons, List.map_nil, k.vm_arg, Option.getD_none, hw,
        Option.getD_some]
      rfl

end Store

section Extracted

theorem Extraction.toFlatten_lt {ce ce' : CodeExtractor} {M : Module} (x : Extraction ce M ce') (hM : M.WF) {N : Module}
    (hle : M.nextId ≤ N.nextId) (hacc : ∀ a ∈ ce.accesses.getD [], ∃ i ∈ M.insts, i.id = a) :
    ∀ a ∈ ce'.toFlatten, N.nextId > a := by
  refine flattenedAccesses_lt hM hle ?_
  rw [x.from_.sets.accesses]
  exact hacc

theorem Extraction.noRet {ce ce' : CodeExtractor} {M : Module} (x : Extraction ce M ce') (hM : M.WF) (hv : Verified M)
    (hu : ValidUses M) (hpad : HeaderNoPad M x.header) :
    ∀ i ∈ (splitReturnBlocks ce'.blocks x.severed).regionInsts ce'.blocks.elems, i.op ≠ .ret :=
  splitReturnBlocks_noRet x.from_.wf (severSplitPHINodes_shape hM hv hpad x.severed_eq).ret
    (severSplitPHINodes_last hM hu.last hpad x.severed_eq) x.from_.blocks

/- The new function returns in one place, and which scalar outputs of the region it has written back by then. -/
theorem cloneCodeRegion_stored_iff {ce₀ ce ce' : CodeExtractor} {M M' : Module} {f : FuncId} {acc : Option (List InstId)}
    {bbs : List BlockId} {iterInfo : Option IteratorInfo} {LBA : Option LoopBoundsAnalyzer}
    {DT : Option (BlockId → Bool)} {agg varArgs allocas flatten : Bool} (hM : M.WF) (hv : Verified M)
    (hu : ValidUses M) (h0 : codeExtractor M bbs iterInfo LBA DT agg varArgs allocas flatten = some ce₀)
    (hbs : ∀ b ∈ bbs, ∃ x ∈ M.blocks, x.id = b) (hp : ce₀.prepare M = some ce)
    (hacc : ∀ a ∈ acc.getD [], ∃ i ∈ M.insts, i.id = a)
    (h : cloneCodeRegion { ce with accesses := acc } M = some (ce', M', some f)) :
    ∃ (x : Extraction { ce with accesses := acc } M ce') (F : Function) (exit : Block),
      M'.funcs.find? (fun g => g.id = f) = some F ∧ F = x.cloned.newFunction ∧
      ReturnsThrough F (splitReturnBlocks ce'.blocks x.severed) ce'.blocks exit ∧
      ∀ (i : Nat) o, ce'.outputs.elems[i]? = some o → o.ty.isPointerTy = false →
        ((∃ w, x.cloned.vm.val o = some w ∧ StoredBeforeReturn F w (ce'.getPureInputs.length + i)) ↔
          definedInRegion (splitReturnBlocks ce'.blocks x.severed) ce'.blocks o = true ∧ MappedTo ce' i) := by
  have hexist := prepare_exist h0 hbs hp
  obtain ⟨x, rfl, rfl⟩ := cloneCodeRegion_extraction hM (by exact hexist) h
  have hpad : HeaderNoPad M x.header := codeExtractor_noPad h0 (prepare_blocks hp ▸ x.header_head)
  have hshape := x.shape hM hv hpad
  have hreturns := x.cloned.returnsThrough (x.toFlatten_lt hM hshape.le hacc)
    (fun b hb => hshape.terminated b ((mem_region hshape.wf.toIds).mp hb).1) (x.noRet hM hv hu hpad)
  exact ⟨x, x.cloned.newFunction, _, x.find_function, rfl, hreturns,
    fun i o ho hty => x.cloned.stored_iff hreturns ho hty⟩

end Extracted

theorem cloneCodeRegion_stored_iff_sumLoop : ∃ (ce ce' : CodeExtractor) (M' : Module) (f : FuncId)
    (x : Extraction { ce with accesses := none } sumLoop ce') (F : Function) (exit : Block),
    cloneCodeRegion { ce with accesses := none } sumLoop = some (ce', M', some f) ∧
    M'.funcs.find? (fun g => g.id = f) = some F ∧
    ReturnsThrough F (splitReturnBlocks ce'.blocks x.severed) ce'.blocks exit ∧
    ∀ (i : Nat) o, ce'.outputs.elems[i]? = some o → o.ty.isPointerTy = false →
      ((∃ w, x.cloned.vm.val o = some w ∧ StoredBeforeReturn F w (ce'.getPureInputs.length + i)) ↔
        definedInRegion (splitReturnBlocks ce'.blocks x.severed) ce'.blocks o = true ∧ MappedTo ce' i) := by
  have hrun : sumReport.isSome = true := by decide
  obtain ⟨⟨ce, ce', M', f, F, ds⟩, hr⟩ := Option.isSome_iff_exists.mp hrun
  obtain ⟨hce, hclone, -, -⟩ := bodyReport_spec hr
  have hnone : (preparedExtractor sumArgs sumLoop sumInfo).all (fun ce => ce.accesses = none) = true := by decide
  rw [hce, Option.all_some, decide_eq_true_eq] at hnone
  have hprep := hce
  unfold preparedExtractor at hprep
  obtain ⟨ce₀, h0, hp⟩ := Option.bind_eq_some_iff.mp hprep
  have hclone' : cloneCodeRegion { ce with accesses := none } sumLoop = some (ce', M', some f) := by
    rw [← hnone]
    exact hclone
  obtain ⟨x, F, exit, hF, -, hreturns, hiff⟩ := cloneCodeRegion_stored_iff sumLoop_wf sumLoop_verified
    sumLoop_validUses h0 (fun b hb => sumLoop_loopBlocks.exist b (List.mem_filter.mp hb).1) hp (by simp) hclone'
  exact ⟨ce, ce', M', f, x, F, exit, hclone', hF, hreturns, hiff⟩

/- `for (i = 0; i < n; ++i) last = a[i]`: the element is used after the loop. -/
def lastLoop : Module where
  funcs := [{ id := 9, params := [⟨"a", .ptr (.int 32) 0⟩, ⟨"n", .int 32⟩], isVarArg := false, blocks :=
    [⟨0, [Inst.uncondBr 20 1], false⟩,
     ⟨1, [⟨10, .phi, .int 32, [.const (.int 32 0), .inst 16 (.int 32)], [0, 3], []⟩,
          ⟨11, .phi, .int 32, [.const (.int 32 0), .inst 14 (.int 32)], [0, 3], []⟩,
          ⟨12, .other 0, .int 1, [.inst 10 (.int 32), .arg 9 1 (.int 32)], [], []⟩,
          ⟨21, .br, .void, [.inst 12 (.int 1)], [], [2, 4]⟩], false⟩,
     ⟨2, [⟨13, .getElementPtr, .ptr (.int 32) 0, [.arg 9 0 (.ptr (.int 32) 0), .inst 10 (.int 32)], [], []⟩,
          ⟨14, .load, .int 32, [.inst 13 (.ptr (.int 32) 0)], [], []⟩,
          Inst.uncondBr 22 3], false⟩,
     ⟨3, [⟨16, .add, .int 32, [.inst 10 (.int 32), .const (.int 32 1)], [], []⟩,
          Inst.uncondBr 23 1], false⟩,
     ⟨4, [⟨24, .ret, .void, [.inst 11 (.int 32)], [], []⟩], false⟩] }]
  nextId := 30
  valueName := fun _ => ""
  initUsesBlockAddress := fun _ => false

/- The one output of the body has a parameter, and no return is behind a store through it. -/
theorem lastLoop_unstored : ∃ ce ce' M' f F, preparedExtractor sumArgs lastLoop sumInfo = some ce ∧
    cloneCodeRegion ce lastLoop = some (ce', M', some f) ∧
    M'.funcs.find? (fun g => g.id = f) = some F ∧ ce'.outputs.elems = [.inst 14 (.int 32)] ∧
    F.params.length = ce'.getPureInputs.length + 1 ∧ ∀ w i, ¬StoredBeforeReturn F w i := by
  have hrun : ((preparedExtractor sumArgs lastLoop sumInfo).bind fun ce =>
      (cloneCodeRegion ce lastLoop).bind fun r => r.2.2.bind fun f =>
        (r.2.1.funcs.find? fun g => g.id = f).bind fun F =>
          if r.1.outputs.elems = [.inst 14 (.int 32)] ∧
            F.params.length = r.1.getPureInputs.length + 1 ∧ (∀ i ∈ F.insts, i.op ≠ .store) ∧
            ∃ i ∈ F.insts, i.op = .ret then some F
          else none).isSome = true := by decide
  obtain ⟨F, hrun⟩ := Option.isSome_iff_exists.mp hrun
  obtain ⟨ce, hce, hrun⟩ := Option.bind_eq_some_iff.mp hrun
  obtain ⟨⟨ce', M', f⟩, hclone, hrun⟩ := Option.bind_eq_some_iff.mp hrun
  obtain ⟨f, rfl, hrun⟩ := Option.bind_eq_some_iff.mp hrun
  obtain ⟨F', hF, hrun⟩ := Option.bind_eq_some_iff.mp hrun
  split at hrun
  · next hall =>
    cases hrun
    refine ⟨ce, ce', M', f, F, hce, hclone, hF, hall.1, hall.2.1, ?_⟩
    intro w i hstored
    obtain ⟨r, hr, hop⟩ := hall.2.2.2
    obtain ⟨b, hb, hrb⟩ := List.mem_flatMap.mp hr
    obtain ⟨pre, post, hsplit⟩ := List.append_of_mem hrb
    obtain ⟨st, hst, hstore, -⟩ := hstored b hb pre r post hsplit hop
    refine hall.2.2.1 st (List.mem_flatMap.mpr ⟨b, hb, ?_⟩) hstore
    rw [hsplit]
    exact List.mem_append_left _ hst
  · cases hrun

end Atrox
