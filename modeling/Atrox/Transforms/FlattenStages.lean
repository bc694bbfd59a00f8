import Atrox.Transforms.ClonePlan

/-!
# Flattening among the clones

Flattening rewrites clones only. An invariant of the clones, the counter and `VMap`
that one rewritten GEP keeps holds after the loop over the accesses.
-/

namespace Atrox
open IR Lib

/-- The module `M` with the clones `cs` at the end of the function `f`. -/
def clonedModule (M : Module) (f : FuncId) (cs : List Block) (n : Nat) : Module :=
  { appendBlocks M f cs with nextId := n }

theorem clonedModule_mapBlocks (M : Module) (f : FuncId) (cs : List Block) (n : Nat)
    (g : Block → Block) (h : ∀ b ∈ M.blocks, g b = b) :
    (clonedModule M f cs n).mapBlocks g = clonedModule M f (cs.map g) n := by
  rw [clonedModule, clonedModule, Module.mapBlocks, appendBlocks_mapBlocks f cs g h]
  rfl

theorem clonedModule_insts (M : Module) (f : FuncId) (cs : List Block) (n : Nat) :
    ∀ i ∈ (clonedModule M f cs n).insts, i ∈ M.insts ∨ i ∈ cs.flatMap Block.insts := by
  intro i hi
  obtain ⟨b, hb, hib⟩ := List.mem_flatMap.mp hi
  obtain ⟨g, hg, hbg⟩ := List.mem_flatMap.mp hb
  obtain ⟨k, hk, rfl⟩ := List.mem_map.mp hg
  have hold : b ∈ k.blocks → i ∈ M.insts := fun hm =>
    List.mem_flatMap.mpr ⟨b, mem_blocks_of_func hk hm, hib⟩
  split at hbg
  · rcases List.mem_append.mp hbg with hm | hm
    · exact .inl (hold hm)
    · exact .inr (List.mem_flatMap.mpr ⟨b, hm, hib⟩)
  · exact .inl (hold hbg)

theorem clonedModule_inj {M : Module} {f : FuncId} {cs cs' : List Block} {n n' : Nat}
    (hf : f ∈ M.funcs.map Function.id) (h : clonedModule M f cs n = clonedModule M f cs' n') :
    cs = cs' ∧ n = n' := by
  refine ⟨?_, congrArg Module.nextId h⟩
  obtain ⟨g, hg, rfl⟩ := List.mem_map.mp hf
  have hfuncs := congrArg Module.funcs h
  have hpoint := List.map_inj_left.mp hfuncs g hg
  rw [if_pos rfl, if_pos rfl] at hpoint
  exact List.append_cancel_left (congrArg Function.blocks hpoint)

theorem cloneBlocks_eq (M : Module) (bs : List BlockId) (f : FuncId) :
    cloneBlocks M bs f =
      clonedModule M f ((M.region bs).map (cloneBasicBlock M.nextId)) (2 * M.nextId) := rfl

/- Number of array dimensions a GEP goes through. -/
def dimensions (gep : Inst) : Nat := (gepPointer gep).elim 0 fun p => (getDecomposedArraySizes p.ty).length

/- The accesses whose GEPs are to be flattened. -/
def CodeExtractor.toFlatten (ce : CodeExtractor) : List InstId :=
  if ce.flattenArrayAccesses then ce.accesses.getD [] else []

/- Accesses to flatten are old instructions. -/
theorem flattenedAccesses_lt {ce : CodeExtractor} {M : Module} {n : Nat} (hM : M.WF) (hle : M.nextId ≤ n)
    (hacc : ∀ a ∈ ce.accesses.getD [], ∃ i ∈ M.insts, i.id = a) : ∀ a ∈ ce.toFlatten, n > a := by
  intro a ha
  unfold CodeExtractor.toFlatten at ha
  split at ha
  · obtain ⟨i, hi, rfl⟩ := hacc a ha
    exact Nat.lt_of_lt_of_le (hM.insts_lt i hi) hle
  · cases ha

/- A GEP gives way to the instructions `is`, the last of which is `r`. -/
def placeGEP (gep : Inst) (is : List Inst) (r : Value) (b : Block) : Block :=
  { b with
    insts := (b.insts.map (Inst.replaceUsesOfWith gep.val r)).flatMap fun x =>
      if x.id = gep.id then is else [x] }

/- Numbers of the clones between two accesses. -/
structure Clones (M : Module) (bs : List BlockId) (cs : List Block) (n : Nat) (vm : ValueMap) :
    Prop where
  ids : cs.map Block.id = bs.map fun b => M.nextId + b
  insts_ge : ∀ i ∈ cs.flatMap Block.insts, M.nextId ≤ i.id
  insts_lt : ∀ i ∈ cs.flatMap Block.insts, i.id < n
  insts_nodup : ((cs.flatMap Block.insts).map Inst.id).Nodup
  nextId_ge : 2 * M.nextId ≤ n
  block : vm.block = (cloneMap M bs).block
  val_ge : ∀ v w, vm.val v = some w → ∃ j t, w = .inst j t ∧ M.nextId ≤ j
  val_dom : ∀ v, (vm.val v).isSome = ((cloneMap M bs).val v).isSome

theorem flatMap_blocks_insts (cs : List Block) (gep : Inst) (is : List Inst) (r : Value) :
    (cs.map (placeGEP gep is r)).flatMap Block.insts =
      ((cs.flatMap Block.insts).map (Inst.replaceUsesOfWith gep.val r)).flatMap fun x =>
        if x.id = gep.id then is else [x] := by
  simp only [List.flatMap_map, placeGEP, List.map_flatMap, List.flatMap_assoc]

/- What there is after a GEP has given way. -/
theorem placeGEP_mem {cs : List Block} {gep : Inst} {is : List Inst} {r : Value} {x : Inst} :
    x ∈ (cs.map (placeGEP gep is r)).flatMap Block.insts ↔
      (x ∈ is ∧ ∃ y ∈ cs.flatMap Block.insts, y.id = gep.id) ∨
      ∃ y ∈ cs.flatMap Block.insts, y.id ≠ gep.id ∧ x = y.replaceUsesOfWith gep.val r := by
  rw [flatMap_blocks_insts]
  simp only [List.mem_flatMap, List.mem_map]
  constructor
  · rintro ⟨_, ⟨y, hy, rfl⟩, hx⟩
    by_cases hid : y.id = gep.id
    · rw [if_pos (show (Inst.replaceUsesOfWith gep.val r y).id = gep.id from hid)] at hx
      exact .inl ⟨hx, y, hy, hid⟩
    · rw [if_neg (show ¬(Inst.replaceUsesOfWith gep.val r y).id = gep.id from hid)] at hx
      exact .inr ⟨y, hy, hid, List.mem_singleton.mp hx⟩
  · rintro (⟨hx, y, hy, hid⟩ | ⟨y, hy, hid, rfl⟩)
    · refine ⟨_, ⟨y, hy, rfl⟩, ?_⟩
      rw [if_pos (show (Inst.replaceUsesOfWith gep.val r y).id = gep.id from hid)]
      exact hx
    · refine ⟨_, ⟨y, hy, rfl⟩, ?_⟩
      rw [if_neg (show ¬(Inst.replaceUsesOfWith gep.val r y).id = gep.id from hid)]
      exact List.mem_singleton_self _

/- One instruction gives way to fresh ones: numbers stay distinct. -/
theorem nodup_replace (xs is : List Inst) (g n : Nat) (hx : (xs.map Inst.id).Nodup)
    (hlt : ∀ x ∈ xs, x.id < n) (his : (is.map Inst.id).Nodup) (hge : ∀ i ∈ is, n ≤ i.id) :
    ((xs.flatMap fun x => if x.id = g then is else [x]).map Inst.id).Nodup := by
  induction xs with
  | nil => exact List.nodup_nil
  | cons x xs ih =>
    simp only [List.map_cons, List.nodup_cons] at hx
    have hrest := ih hx.2 fun y hy => hlt y (List.mem_cons_of_mem x hy)
    rw [List.flatMap_cons, List.map_append]
    have hmem : ∀ y ∈ xs.flatMap (fun x => if x.id = g then is else [x]),
        (y ∈ is ∧ ∃ z ∈ xs, z.id = g) ∨ y ∈ xs := by
      intro y hy
      obtain ⟨z, hz, hyz⟩ := List.mem_flatMap.mp hy
      by_cases hzg : z.id = g
      · rw [if_pos hzg] at hyz
        exact .inl ⟨hyz, z, hz, hzg⟩
      · rw [if_neg hzg, List.mem_singleton] at hyz
        exact .inr (hyz ▸ hz)
    refine List.Nodup.append ?_ hrest ?_
    · split
      · exact his
      · simp
    · intro k hk hk'
      obtain ⟨y, hy, rfl⟩ := List.mem_map.mp hk'
      by_cases hxg : x.id = g
      · rw [if_pos hxg] at hk
        obtain ⟨i, hi, he⟩ := List.mem_map.mp hk
        rcases hmem y hy with ⟨-, z, hz, hzg⟩ | hm
        · exact hx.1 (hxg.trans hzg.symm ▸ List.mem_map_of_mem hz)
        · have h1 := hlt y (List.mem_cons_of_mem x hm)
          have h2 := hge i hi
          omega
      · rw [if_neg hxg, List.map_singleton, List.mem_singleton] at hk
        rcases hmem y hy with ⟨hi, -⟩ | hm
        · have h1 := hlt x (List.mem_cons_self ..)
          have h2 := hge y hi
          omega
        · exact hx.1 (hk ▸ List.mem_map_of_mem hm)

section Run
variable {M : Module} {bs : List BlockId} (f : FuncId)

/- Old blocks do not mention clones. -/
theorem placeGEP_old (hM : M.WF) {gep : Inst} (hg : M.nextId ≤ gep.id) (is : List Inst) (r : Value) :
    ∀ b ∈ M.blocks, placeGEP gep is r b = b := by
  intro b hb
  have hmap : b.insts.map (Inst.replaceUsesOfWith gep.val r) = b.insts := by
    conv_rhs => rw [← List.map_id b.insts]
    apply List.map_congr_left
    intro i hi
    have him : i ∈ M.insts := List.mem_flatMap.mpr ⟨b, hb, hi⟩
    have hops : i.operands.map (fun v => if v = gep.val then r else v) = i.operands := by
      conv_rhs => rw [← List.map_id i.operands]
      apply List.map_congr_left
      intro v hv
      rw [if_neg, id]
      intro he
      have := hM.operands_lt i him gep.id gep.ty (by rw [he] at hv; exact hv)
      omega
    rw [Inst.replaceUsesOfWith, hops, id]
  have hflat : b.insts.flatMap (fun x => if x.id = gep.id then is else [x]) = b.insts := by
    conv_rhs => rw [← List.flatMap_singleton' b.insts]
    apply List.flatMap_congr
    intro i hi
    rw [if_neg]
    intro he
    have := hM.insts_lt i (List.mem_flatMap.mpr ⟨b, hb, hi⟩)
    omega
  rw [placeGEP, hmap, hflat]

/- One flattened GEP on the module is `placeGEP` on the clones. -/
theorem flatten_clonedModule (hM : M.WF) {cs : List Block} {n : Nat} {gep : Inst}
    (hg : M.nextId ≤ gep.id) {M' : Module} {r : Option Value}
    (h : flattenMultiDimArrayIndices (clonedModule M f cs n) gep = some (M', r)) :
    (M' = clonedModule M f cs n ∧ r = none ∧ dimensions gep ≤ 1) ∨
    ∃ base idx new g, gep.operands = base :: idx ∧ 1 < dimensions gep ∧
      flattenGEP gep base idx (getDecomposedArraySizes base.ty) n = some (g, new) ∧ r = some g ∧
      M' = clonedModule M f (cs.map (placeGEP gep new.insts g)) new.nextId := by
  unfold flattenMultiDimArrayIndices at h
  split at h
  · next hops =>
    cases h
    refine .inl ⟨rfl, rfl, ?_⟩
    rw [dimensions, gepPointer, hops]
    exact Nat.zero_le 1
  · next base idx hops =>
    have hdim : dimensions gep = (getDecomposedArraySizes base.ty).length := by
      rw [dimensions, gepPointer, hops]
      rfl
    dsimp only at h
    split at h
    · next hle =>
      cases h
      exact .inl ⟨rfl, rfl, hdim ▸ hle⟩
    · next hgt =>
      obtain ⟨q, hq, h⟩ := Option.map_eq_some_iff.mp h
      cases h
      refine .inr ⟨base, idx, q.2, q.1, hops, by omega, hq, rfl, ?_⟩
      have hplace := clonedModule_mapBlocks M f cs n (placeGEP gep q.2.insts q.1)
        (placeGEP_old hM hg q.2.insts q.1)
      have hboth : (((clonedModule M f cs n).replaceAllUsesWith gep.val q.1).replaceInst gep.id
          q.2.insts) = clonedModule M f (cs.map (placeGEP gep q.2.insts q.1)) n := by
        rw [← hplace, Module.replaceInst, Module.replaceAllUsesWith, mapBlocks_mapBlocks]
        rfl
      rw [hboth]
      rfl

theorem Clones.place {cs : List Block} {n : Nat} {vm : ValueMap}
    (h : Clones M bs cs n vm) {gep : Inst} {base g : Value} {idx : List Value} {sizes : List Nat}
    {new : IRBuilder} (hg : flattenGEP gep base idx sizes n = some (g, new)) :
    Clones M bs (cs.map (placeGEP gep new.insts g)) new.nextId (vm.follow gep.val g) := by
  obtain ⟨⟨hids, hnext⟩, is, i, sum, c, hnew, hval, -⟩ := flattenGEP_spec hg
  dsimp only at hids hnext hnew hval
  have hnew_ge : ∀ x ∈ new.insts, n ≤ x.id ∧ x.id < new.nextId := by
    intro x hx
    have hm : x.id ∈ List.range' n new.insts.length := hids ▸ List.mem_map_of_mem hx
    rw [List.mem_range'_1] at hm
    omega
  have hmono : n ≤ new.nextId := by omega
  have hmem : ∀ x ∈ (cs.map (placeGEP gep new.insts g)).flatMap Block.insts,
      x ∈ new.insts ∨ ∃ y ∈ cs.flatMap Block.insts, x = Inst.replaceUsesOfWith gep.val g y := by
    intro x hx
    rcases placeGEP_mem.mp hx with ⟨hx, -⟩ | ⟨y, hy, -, rfl⟩
    · exact .inl hx
    · exact .inr ⟨y, hy, rfl⟩
  have hbase := h.nextId_ge
  constructor
  · rw [List.map_map]
    exact h.ids
  · intro x hx
    rcases hmem x hx with hx | ⟨y, hy, rfl⟩
    · have := hnew_ge x hx
      omega
    · exact h.insts_ge y hy
  · intro x hx
    rcases hmem x hx with hx | ⟨y, hy, rfl⟩
    · exact (hnew_ge x hx).2
    · exact Nat.lt_of_lt_of_le (h.insts_lt y hy) hmono
  · rw [flatMap_blocks_insts]
    refine nodup_replace _ new.insts gep.id n ?_ ?_ ?_ fun x hx => (hnew_ge x hx).1
    · rw [List.map_map]
      exact h.insts_nodup
    · intro x hx
      obtain ⟨y, hy, rfl⟩ := List.mem_map.mp hx
      exact h.insts_lt y hy
    · rw [hids]
      exact List.nodup_range'
  · omega
  · exact h.block
  · intro v w hw
    obtain ⟨u, hu, rfl⟩ := Option.map_eq_some_iff.mp hw
    split
    · refine ⟨i.id, i.ty, hval.symm, ?_⟩
      have := (hnew_ge i (by simp [hnew])).1
      omega
    · exact h.val_ge v u hu
  · intro v
    rw [← h.val_dom v, ValueMap.follow, Option.isSome_map]

/- Nothing is done for an access that goes through no GEP, or through one whose clone has at most
one dimension. -/
def Skips (M : Module) (cs : List Block) (n : Nat) (vm : ValueMap) (access : InstId) : Prop :=
  ∀ ptr, accessGEP (clonedModule M f cs n) access = some ptr → ∃ j t, vm.val ptr.val = some (.inst j t) ∧
    ∀ gep ∈ cs.flatMap Block.insts, gep.id = j → gep.op = .getElementPtr → dimensions gep ≤ 1

/- A GEP `gep` among the clones gives way to `new` for the sake of an access. -/
structure Places (M : Module) (cs : List Block) (n : Nat) (vm : ValueMap) (access : InstId) (gep : Inst)
    (g : Value) (new : IRBuilder) : Prop where
  access : ∃ ptr t, accessGEP (clonedModule M f cs n) access = some ptr ∧
    vm.val ptr.val = some (.inst gep.id t)
  mem : gep ∈ cs.flatMap Block.insts
  op : gep.op = .getElementPtr
  dims : 1 < dimensions gep
  flat : ∃ base idx, gep.operands = base :: idx ∧
    flattenGEP gep base idx (getDecomposedArraySizes base.ty) n = some (g, new)

theorem flattenAccess_inv (hM : M.WF) {cs : List Block} {n : Nat} {vm : ValueMap} {access : InstId}
    (hc : Clones M bs cs n vm) {st : Module × ValueMap}
    (h : flattenAccess (clonedModule M f cs n, vm) access = some st) :
    (st = (clonedModule M f cs n, vm) ∧ Skips f M cs n vm access) ∨
    ∃ gep g new, Places f M cs n vm access gep g new ∧
      st = (clonedModule M f (cs.map (placeGEP gep new.insts g)) new.nextId, vm.follow gep.val g) := by
  unfold flattenAccess at h
  split at h
  · next hnone =>
    cases h
    refine .inl ⟨rfl, fun ptr hptr => ?_⟩
    rw [show accessGEP (clonedModule M f cs n) access = none from hnone] at hptr
    cases hptr
  · next ptr hptr =>
    obtain ⟨cgep, hcg, h⟩ := Option.bind_eq_some_iff.mp h
    obtain ⟨j, t, rfl, hj⟩ := hc.val_ge _ _ hcg
    dsimp only at h hcg hptr
    cases hfind : (clonedModule M f cs n).inst? j with
    | none => rw [hfind] at h; cases h
    | some gep =>
      rw [hfind] at h
      dsimp only at h
      have hid : gep.id = j := inst?_id hfind
      have hmem : gep ∈ cs.flatMap Block.insts := by
        rcases clonedModule_insts M f cs n gep (inst?_mem hfind) with hm | hm
        · have := hM.insts_lt gep hm
          omega
        · exact hm
      have hone : ∀ x ∈ cs.flatMap Block.insts, x.id = j → x = gep := fun x hx he =>
        List.inj_on_of_nodup_map hc.insts_nodup hx hmem (he.trans hid.symm)
      have hskip : (gep.op = .getElementPtr → dimensions gep ≤ 1) → Skips f M cs n vm access := by
        intro hdim ptr' hptr'
        obtain rfl := Option.some.inj (hptr.symm.trans hptr')
        refine ⟨j, t, hcg, fun x hx he hop => ?_⟩
        obtain rfl := hone x hx he
        exact hdim hop
      split at h
      · next hop =>
        have hge : M.nextId ≤ gep.id := hid.symm ▸ hj
        cases hfl : flattenMultiDimArrayIndices (clonedModule M f cs n) gep with
        | none => rw [hfl] at h; cases h
        | some q =>
          obtain ⟨N', r⟩ := q
          rw [hfl] at h
          rcases flatten_clonedModule f hM hge hfl with
            ⟨rfl, rfl, hdim⟩ | ⟨base, idx, new, g, hops, hdim, hnew, rfl, rfl⟩
          · cases h
            exact .inl ⟨rfl, hskip fun _ => hdim⟩
          · cases h
            refine .inr ⟨gep, g, new, ⟨⟨ptr, t, hptr, ?_⟩, hmem, hop, hdim, base, idx, hops, hnew⟩, rfl⟩
            rw [hid]
            exact hcg
      · next hop =>
        cases h
        exact .inl ⟨rfl, hskip fun hop' => absurd hop' hop⟩

/-- The loop over the accesses: what each access keeps, flattened or not. `P` may speak of
the accesses already seen. -/
theorem flattenAccesses_run (hM : M.WF) {P : List InstId → List Block → Nat → ValueMap → Prop}
    {ce : CodeExtractor} {cs : List Block} {n : Nat} {vm : ValueMap} (hc : Clones M bs cs n vm)
    (hP : P [] cs n vm)
    (hskip : ∀ pre access cs n vm, access ∈ ce.toFlatten → Clones M bs cs n vm → P pre cs n vm →
      Skips f M cs n vm access → P (pre ++ [access]) cs n vm)
    (hplace : ∀ pre access cs n vm gep g new, access ∈ ce.toFlatten → Clones M bs cs n vm →
      P pre cs n vm → Places f M cs n vm access gep g new →
      P (pre ++ [access]) (cs.map (placeGEP gep new.insts g)) new.nextId (vm.follow gep.val g))
    {M' : Module} {vm' : ValueMap}
    (h : flattenAccesses ce (clonedModule M f cs n) vm = some (M', vm')) :
    ∃ cs' n', M' = clonedModule M f cs' n' ∧ Clones M bs cs' n' vm' ∧ P ce.toFlatten cs' n' vm' := by
  unfold flattenAccesses at h
  split at h
  · next hflat =>
    obtain ⟨accesses, hacc, h⟩ := Option.bind_eq_some_iff.mp h
    have hto : ce.toFlatten = accesses := by
      rw [CodeExtractor.toFlatten, if_pos hflat, hacc, Option.getD_some]
    let Q : List InstId → Module × ValueMap → Prop := fun pre st =>
      ∃ cs n, st.1 = clonedModule M f cs n ∧ Clones M bs cs n st.2 ∧ P pre cs n st.2
    rw [hto] at hskip hplace ⊢
    refine foldlM_run (P := Q) accesses ?_ ⟨cs, n, rfl, hc, hP⟩ h
    rintro pre access post ⟨N, vm⟩ st' hsplit ⟨cs, n, rfl, hc, hP⟩ hst
    have hmem : access ∈ accesses := by simp [hsplit]
    rcases flattenAccess_inv f hM hc hst with ⟨rfl, hs⟩ | ⟨gep, g, new, hpl, rfl⟩
    · exact ⟨cs, n, rfl, hc, hskip pre access cs n vm hmem hc hP hs⟩
    · obtain ⟨base, idx, -, hnew⟩ := hpl.flat
      exact ⟨_, _, rfl, hc.place hnew, hplace pre access cs n vm gep g new hmem hc hP hpl⟩
  · next hflat =>
    cases h
    have hto : ce.toFlatten = [] := by
      rw [CodeExtractor.toFlatten, if_neg hflat]
    exact ⟨cs, n, rfl, hc, hto ▸ hP⟩

end Run

end Atrox
