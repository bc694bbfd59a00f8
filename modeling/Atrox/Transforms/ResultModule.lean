import Atrox.Transforms.SelfContained

/-!
# The module with the new function

Its numbers are fresh, and it names nothing that has no number yet. So the next region can be
cloned from it.
-/

namespace Atrox
open IR Lib

section Plans
variable {c : CloneCtx} {n : Nat}

/- The instructions of a plan have numbers of their own, from `n` on. -/
structure Plan.Numbered (n : Nat) (s : Plan) : Prop where
  le : n ≤ s.nextId
  nodup : (s.insts.map Inst.id).Nodup
  ge : ∀ i ∈ s.insts, n ≤ i.id
  lt : ∀ i ∈ s.insts, i.id < s.nextId

theorem Plan.Numbered.start (n : Nat) : Plan.Numbered n ⟨[], [], n⟩ :=
  ⟨Nat.le_refl n, List.nodup_nil, by simp, by simp⟩

theorem Plan.Numbered.insertInst {s : Plan} (h : s.Numbered n) (op : Opcode) (ty : Ty) (operands : List Value) :
    (s.insertInst op ty operands).2.Numbered n := by
  have hmem : ∀ i ∈ (s.insertInst op ty operands).2.insts, i ∈ s.insts ∨ i.id = s.nextId := by
    intro i hi
    rcases List.mem_append.mp hi with hi | hi
    · exact .inl hi
    · rw [List.mem_singleton.mp hi]
      exact .inr rfl
  refine ⟨Nat.le_succ_of_le h.le, ?_, fun i hi => ?_, fun i hi => ?_⟩
  · simp only [Plan.insertInst, List.map_append, List.map_cons, List.map_nil]
    refine List.nodup_append.mpr ⟨h.nodup, List.nodup_singleton _, ?_⟩
    intro m hm k hk he
    obtain ⟨i, hi, rfl⟩ := List.mem_map.mp hm
    have hlt := h.lt i hi
    rw [he, List.mem_singleton.mp hk] at hlt
    exact Nat.lt_irrefl _ hlt
  · rcases hmem i hi with hi | he
    · exact h.ge i hi
    · exact he ▸ h.le
  · rcases hmem i hi with hi | he
    · exact Nat.lt_succ_of_lt (h.lt i hi)
    · exact he ▸ Nat.lt_succ_self _

theorem planRoot_numbered {s : Plan} (h : c.planRoot n = some s) : s.Numbered n :=
  planRoot_run (P := Plan.Numbered n) (.start n) (fun _ _ _ _ hs _ => hs.insertInst ..)
    (fun _ _ _ hs _ => ⟨hs.le, hs.nodup, hs.ge, hs.lt⟩) h

theorem planExit_numbered {t : Plan} (h : c.planExit n = some t) : t.Numbered n :=
  planExit_run (P := Plan.Numbered n) (.start n) (fun _ _ _ hs _ _ _ => hs.insertInst ..) h

end Plans

/- Blocks and instructions of one more function. -/
theorem extended_wf {M : Module} {nf : Function} {n : Nat} (hM : M.WF) (hle : M.nextId ≤ n)
    (hid : M.nextId ≤ nf.id ∧ nf.id < n) (hblocks : (nf.blocks.map Block.id).Nodup)
    (hbge : ∀ b ∈ nf.blocks, M.nextId ≤ b.id ∧ b.id < n) (hinsts : (nf.insts.map Inst.id).Nodup)
    (hige : ∀ i ∈ nf.insts, M.nextId ≤ i.id ∧ i.id < n) (hops : ∀ i ∈ nf.insts, ∀ v ∈ i.operands, v.below n) :
    (extended M nf n).WF := by
  have hb : (extended M nf n).blocks = M.blocks ++ nf.blocks := by
    simp only [extended, Module.blocks, List.flatMap_append, List.flatMap_singleton]
  have hi : (extended M nf n).insts = M.insts ++ nf.insts := by
    rw [Module.insts, hb, List.flatMap_append]
    rfl
  refine ⟨⟨?_, ?_, ?_, ?_⟩, ?_, ?_, ?_⟩
  · rw [hb, List.map_append]
    refine List.nodup_append.mpr ⟨hM.blocks_nodup, hblocks, ?_⟩
    intro a ha b hb' he
    obtain ⟨x, hx, rfl⟩ := List.mem_map.mp ha
    obtain ⟨y, hy, rfl⟩ := List.mem_map.mp hb'
    exact Nat.ne_of_lt (Nat.lt_of_lt_of_le (hM.blocks_lt x hx) (hbge y hy).1) he
  · rw [hi, List.map_append]
    refine List.nodup_append.mpr ⟨hM.insts_nodup, hinsts, ?_⟩
    intro a ha b hb' he
    obtain ⟨x, hx, rfl⟩ := List.mem_map.mp ha
    obtain ⟨y, hy, rfl⟩ := List.mem_map.mp hb'
    exact Nat.ne_of_lt (Nat.lt_of_lt_of_le (hM.insts_lt x hx) (hige y hy).1) he
  · rw [hb]
    intro b hbm
    rcases List.mem_append.mp hbm with hbm | hbm
    · exact Nat.lt_of_lt_of_le (hM.blocks_lt b hbm) hle
    · exact (hbge b hbm).2
  · rw [hi]
    intro i him
    rcases List.mem_append.mp him with him | him
    · exact Nat.lt_of_lt_of_le (hM.insts_lt i him) hle
    · exact (hige i him).2
  · simp only [extended, List.map_append, List.map_cons, List.map_nil]
    refine List.nodup_append.mpr ⟨hM.funcs_nodup, List.nodup_singleton _, ?_⟩
    intro a ha b hb' he
    obtain ⟨f, hf, rfl⟩ := List.mem_map.mp ha
    rw [List.mem_singleton.mp hb'] at he
    exact Nat.ne_of_lt (Nat.lt_of_lt_of_le (hM.funcs_lt f hf) hid.1) he
  · intro f hf
    rcases List.mem_append.mp hf with hf | hf
    · exact Nat.lt_of_lt_of_le (hM.funcs_lt f hf) hle
    · rw [List.mem_singleton.mp hf]
      exact hid.2
  · rw [hi]
    intro i him v hv
    rcases List.mem_append.mp him with him | him
    · exact (hM.operands_below i him v hv).mono hle
    · exact hops i him v hv

namespace Cloned
variable {ce : CodeExtractor} {M : Module} {header : BlockId} {old : Function} (k : Cloned ce M header old)

/- The counter on the way: `VMap` and the clones, the root, the exit. -/
theorem counters : 2 * M.nextId ≤ k.n ∧ k.n + 4 ≤ k.root.nextId ∧ k.root.nextId + 1 ≤ k.exit.nextId :=
  ⟨k.numbers.nextId_ge, (planRoot_numbered k.root_eq).le, (planExit_numbered k.exit_eq).le⟩

theorem newFunction_insts : k.newFunction.insts = (rootBlock k.ctx k.root (M.nextId + header)).insts ++
    ((exitBlock k.ctx k.root k.exit k.vm).insts ++
      (k.clones.map (finishBlock k.ctx k.root.subst k.vm (M.nextId + header))).flatMap Block.insts) := by
  simp only [newFunction, functionWith, Function.insts, List.flatMap_append, List.flatMap_cons, List.flatMap_nil,
    List.append_nil, List.append_assoc]

/- Erasing and rewriting leave numbers of the clones. -/
theorem finish_sublist :
    (((k.clones.map (finishBlock k.ctx k.root.subst k.vm (M.nextId + header))).flatMap Block.insts).map Inst.id).Sublist
      ((k.clones.flatMap Block.insts).map Inst.id) := by
  rw [← rewriteBlock_ids k.ctx k.root.subst k.vm (M.nextId + header) k.clones]
  have hfilter : (k.clones.map (finishBlock k.ctx k.root.subst k.vm (M.nextId + header))).flatMap Block.insts =
      ((k.clones.map (rewriteBlock k.ctx k.root.subst k.vm (M.nextId + header))).flatMap Block.insts).filter
        fun i => !isIgnoredIntrinsic i := by
    rw [List.filter_flatMap, List.flatMap_map, List.flatMap_map]
    rfl
  rw [hfilter]
  exact List.filter_sublist.map Inst.id

theorem finish_ids {i : Inst}
    (hi : i ∈ (k.clones.map (finishBlock k.ctx k.root.subst k.vm (M.nextId + header))).flatMap Block.insts) :
    M.nextId ≤ i.id ∧ i.id < k.n := by
  obtain ⟨j, hj, hid⟩ := List.mem_map.mp (k.finish_sublist.subset (List.mem_map_of_mem (f := Inst.id) hi))
  rw [← hid]
  exact ⟨k.numbers.insts_ge j hj, k.numbers.insts_lt j hj⟩

/- Numbers of the root: behind the four that the function, its first blocks and the branch take. -/
theorem root_ids {i : Inst} (hi : i ∈ (rootBlock k.ctx k.root (M.nextId + header)).insts) :
    k.n + 3 ≤ i.id ∧ i.id < k.root.nextId := by
  have hr := planRoot_numbered k.root_eq
  rcases List.mem_append.mp hi with hi | hi
  · exact ⟨Nat.le_of_succ_le (hr.ge i hi), hr.lt i hi⟩
  · rw [List.mem_singleton.mp hi]
    exact ⟨Nat.le_refl _, hr.le⟩

theorem exit_ids {i : Inst} (hi : i ∈ (exitBlock k.ctx k.root k.exit k.vm).insts) :
    k.root.nextId ≤ i.id ∧ i.id < k.exit.nextId := by
  have he := planExit_numbered k.exit_eq
  rcases List.mem_append.mp hi with hi | hi
  · obtain ⟨j, hj, rfl⟩ := List.mem_map.mp hi
    exact ⟨Nat.le_of_succ_le (he.ge j hj), he.lt j hj⟩
  · rw [List.mem_singleton.mp hi]
    exact ⟨Nat.le_refl _, he.le⟩

theorem insts_nodup : (k.newFunction.insts.map Inst.id).Nodup := by
  have hr := planRoot_numbered k.root_eq
  have he := planExit_numbered k.exit_eq
  obtain ⟨-, hroot, -⟩ := k.counters
  have hapart : ∀ {a b : List Inst}, (∀ i ∈ a, ∀ j ∈ b, i.id ≠ j.id) → ∀ m ∈ a.map Inst.id, ∀ l ∈ b.map Inst.id, m ≠ l := by
    intro a b h m hm l hl
    obtain ⟨i, hi, rfl⟩ := List.mem_map.mp hm
    obtain ⟨j, hj, rfl⟩ := List.mem_map.mp hl
    exact h i hi j hj
  rw [k.newFunction_insts, List.map_append, List.map_append]
  refine List.nodup_append.mpr ⟨?_, List.nodup_append.mpr ⟨?_, k.finish_sublist.nodup k.numbers.insts_nodup, ?_⟩, ?_⟩
  · simp only [rootBlock, List.map_append, List.map_cons, List.map_nil]
    refine List.nodup_append.mpr ⟨hr.nodup, List.nodup_singleton _, ?_⟩
    refine hapart (b := [Inst.uncondBr (k.n + 3) (M.nextId + header)]) fun i hi j hj => ?_
    rw [List.mem_singleton.mp hj]
    exact Nat.ne_of_gt (hr.ge i hi)
  · simp only [exitBlock, List.map_append, List.map_cons, List.map_nil, List.map_map]
    refine List.nodup_append.mpr ⟨he.nodup, List.nodup_singleton _, ?_⟩
    refine hapart (b := [retInst k.root.nextId]) fun i hi j hj => ?_
    rw [List.mem_singleton.mp hj]
    exact Nat.ne_of_gt (he.ge i hi)
  · refine hapart fun i hi j hj => ?_
    have h1 := k.exit_ids hi
    have h2 := k.finish_ids hj
    omega
  · rw [← List.map_append]
    refine hapart fun i hi j hj => ?_
    have h1 := k.root_ids hi
    rcases List.mem_append.mp hj with hj | hj
    · have h2 := k.exit_ids hj
      omega
    · have h2 := k.finish_ids hj
      omega

theorem blocks_ids : k.newFunction.blocks.map Block.id =
    [k.n + 1, k.n + 2] ++ ce.blocks.elems.map fun b => M.nextId + b := by
  have hclones : k.clones.map (Block.id ∘ finishBlock k.ctx k.root.subst k.vm (M.nextId + header)) =
      k.clones.map Block.id := List.map_congr_left fun b _ => finishBlock_id _ _ _ _ b
  simp only [newFunction, functionWith, List.map_append, List.map_cons, List.map_nil, List.map_map]
  rw [hclones, k.numbers.ids]
  rfl

/- The clones, and what `VMap` leads to, name what has a number. -/
theorem clones_below : (∀ v w, k.vm.val v = some w → w.below k.n) ∧
    ∀ i ∈ k.clones.flatMap Block.insts, ∀ v ∈ i.operands, v.below k.n := by
  refine k.flatten_run (P := fun _ cs n vm => (∀ v w, vm.val v = some w → w.below n) ∧
    ∀ i ∈ cs.flatMap Block.insts, ∀ v ∈ i.operands, v.below n) ⟨?_, ?_⟩ (fun _ _ _ _ _ _ _ hP _ => hP) ?_
  · intro v w hv
    cases v with
    | inst i t =>
      simp only [cloneMap] at hv
      split at hv
      · next hd =>
        cases hv
        have hlt : M.nextId > i := k.definedIn_lt hd
        have hsum : M.nextId + i < 2 * M.nextId := by omega
        exact hsum
      · cases hv
    | _ => cases hv
  · intro i hi v hv
    simp only [List.flatMap_map, cloneBasicBlock] at hi
    obtain ⟨b, hb, hib⟩ := List.mem_flatMap.mp hi
    obtain ⟨j, hj, rfl⟩ := List.mem_map.mp hib
    have hjM : j ∈ M.insts := regionInsts_sub k.wf.toIds (List.mem_flatMap.mpr ⟨b, hb, hj⟩)
    exact (k.wf.operands_below j hjM v hv).mono (by omega)
  · intro pre a cs n vm gep g new _ _ hP hp
    obtain ⟨base, idx, hops, hnew⟩ := hp.flat
    obtain ⟨⟨hids, hnext⟩, -⟩ := flattenGEP_spec hnew
    dsimp only at hids hnext
    have hgops := hP.2 gep hp.mem
    rw [hops] at hgops
    have hclosed := flattenGEP_closed (S := fun v => v.below n) (fun _ => trivial) (hgops base (List.mem_cons_self ..))
      (fun w hw => hgops w (List.mem_cons_of_mem _ hw)) hnew
    dsimp only at hclosed
    have hle : n ≤ new.nextId := by omega
    have hins : ∀ i ∈ new.insts, i.val.below new.nextId := by
      intro i hi
      have hm : i.id ∈ List.range' n new.insts.length := hids ▸ List.mem_map_of_mem hi
      rw [List.mem_range'_1] at hm
      have hlt : new.nextId > i.id := by omega
      exact hlt
    have hg : g.below new.nextId := by
      obtain ⟨i, hi, rfl⟩ := hclosed.2
      exact hins i hi
    refine ⟨fun v w hw => ?_, fun i hi v hv => ?_⟩
    · obtain ⟨u, hu, rfl⟩ := Option.map_eq_some_iff.mp hw
      split
      · exact hg
      · exact (hP.1 v u hu).mono hle
    · rcases placeGEP_mem.mp hi with ⟨hi, -⟩ | ⟨y, hy, -, rfl⟩
      · rcases hclosed.1.operands i hi v hv with hv | ⟨j, hj, rfl⟩
        · exact hv.mono hle
        · exact hins j hj
      · obtain ⟨w, hw, rfl⟩ := List.mem_map.mp hv
        split
        · exact hg
        · exact (hP.2 y hy w hw).mono hle

theorem has_below {v : Value} (h : k.root.Has k.ctx v) : v.below k.root.nextId := by
  have hr := planRoot_numbered k.root_eq
  obtain ⟨-, hroot, -⟩ := k.counters
  rcases h with ⟨x, rfl⟩ | ⟨i, t, -, rfl⟩ | ⟨i, hi, rfl⟩
  · trivial
  · have hlt : k.root.nextId > k.n := by omega
    exact hlt
  · exact hr.lt i hi

theorem image_below {v : Value} (h : v.below k.n) : (k.image v).below k.exit.nextId := by
  obtain ⟨-, hroot, hexit⟩ := k.counters
  have hput : (applySubst k.root.subst v).below k.exit.nextId := by
    rcases applySubst_cases k.root.subst v with he | ⟨p, hp, he⟩
    · rw [he]
      exact h.mono (by omega)
    · rw [he]
      exact (k.has_below ((planRoot_has k.root_eq).2 p hp).2.1).mono (by omega)
  unfold Cloned.image
  cases hv : k.vm.val (applySubst k.root.subst v) with
  | none => exact hput
  | some w => exact (k.clones_below.1 _ w hv).mono (by omega)

/- Operands of the new function name what has a number, when the outputs did. -/
theorem operands_below (hout : ∀ v ∈ ce.outputs, v.below M.nextId) :
    ∀ i ∈ k.newFunction.insts, ∀ v ∈ i.operands, v.below k.exit.nextId := by
  obtain ⟨hn, hroot, hexit⟩ := k.counters
  intro i hi v hv
  rcases k.mem_insts.mp hi with hi | hi | ⟨b, hb, hi⟩
  · rcases List.mem_append.mp hi with hi | hi
    · exact (k.has_below (((planRoot_has k.root_eq).1 i hi).1 v hv)).mono (by omega)
    · rw [List.mem_singleton.mp hi] at hv
      cases hv
  · rcases List.mem_append.mp hi with hi | hi
    · obtain ⟨j, hj, rfl⟩ := List.mem_map.mp hi
      obtain ⟨-, u, -, outv, arg, hof, -, hops⟩ := planExit_stores k.exit_eq j hj
      obtain ⟨hmem, t, harg⟩ := outputOf_spec hof
      dsimp only at hmem harg
      simp only [remapInstruction, hops, List.map_cons, List.map_nil, List.mem_cons, List.not_mem_nil, or_false] at hv
      rcases hv with rfl | rfl
      · cases hw : k.vm.val outv with
        | none => exact (hout outv (List.mem_of_getElem? hmem)).mono (by omega)
        | some w => exact (k.clones_below.1 _ w hw).mono (by omega)
      · rw [harg, k.vm_arg, Option.getD_none]
        have hlt : k.exit.nextId > k.n := by omega
        exact hlt
    · rw [List.mem_singleton.mp hi] at hv
      cases hv
  · obtain ⟨j, hj, -, hcore⟩ := finishBlock_mem _ _ _ _ hi
    rw [operands_of_core hcore] at hv
    simp only [rewriteInst, remapInstruction, CloneCtx.divert, substInst, List.map_map] at hv
    obtain ⟨w, hw, rfl⟩ := List.mem_map.mp hv
    exact k.image_below (k.clones_below.2 j (List.mem_flatMap.mpr ⟨b, hb, hj⟩) w hw)

/-- The module with the new function is well formed. -/
theorem result_wf (hout : ∀ v ∈ ce.outputs, v.below M.nextId) : k.result.WF := by
  obtain ⟨hn, hroot, hexit⟩ := k.counters
  have hlt : ∀ b ∈ ce.blocks.elems, M.nextId > b := by
    intro b hb
    obtain ⟨x, hx, rfl⟩ := k.exist b hb
    exact k.wf.blocks_lt x hx
  have hmem : ∀ m ∈ k.newFunction.blocks.map Block.id, m = k.n + 1 ∨ m = k.n + 2 ∨
      ∃ b ∈ ce.blocks.elems, M.nextId + b = m := by
    intro m hm
    rw [k.blocks_ids] at hm
    simpa only [List.cons_append, List.nil_append, List.mem_cons, List.mem_map] using hm
  have hsome : 1 ≤ M.nextId := Nat.lt_of_le_of_lt (Nat.zero_le header) (hlt header k.header_mem)
  refine extended_wf k.wf (by omega) ⟨?_, ?_⟩ ?_ ?_ k.insts_nodup ?_ (k.operands_below hout)
  · change M.nextId ≤ k.n
    omega
  · change k.n < k.exit.nextId
    omega
  · rw [k.blocks_ids]
    refine List.nodup_append.mpr ⟨?_, ?_, ?_⟩
    · simp
    · exact ce.blocks.nodup.map fun _ _ h => Nat.add_left_cancel h
    · intro a ha b hb he
      obtain ⟨c, hc, rfl⟩ := List.mem_map.mp hb
      have hc' := hlt c hc
      simp only [List.mem_cons, List.not_mem_nil, or_false] at ha
      omega
  · intro b hb
    rcases hmem b.id (List.mem_map_of_mem hb) with he | he | ⟨c, hc, he⟩
    · omega
    · omega
    · have hc' := hlt c hc
      omega
  · intro i hi
    rw [k.newFunction_insts] at hi
    rcases List.mem_append.mp hi with hi | hi
    · have h1 := k.root_ids hi
      omega
    · rcases List.mem_append.mp hi with hi | hi
      · have h1 := k.exit_ids hi
        omega
      · have h1 := k.finish_ids hi
        omega

end Cloned

end Atrox
