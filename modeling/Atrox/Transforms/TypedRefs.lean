import Atrox.Transforms.DecomposedRefs

/-!
# Types of the rewritten references

The tables of pointers are `newTypes`, one level less at each index. All of them are in the default
address space.
-/

namespace Atrox
open IR

section Tables
variable {e : Ty} {m : Nat}

/- `newTypes` for `m` levels of pointers. -/
def tableTypes (e : Ty) (m : Nat) : List Ty := ((List.range m).map fun i => Ty.getUnqual^[i + 1] e).reverse

theorem tableTypes_succ (e : Ty) (m : Nat) : tableTypes e (m + 1) = Ty.getUnqual^[m + 1] e :: tableTypes e m := by
  rw [tableTypes, List.range_succ, List.map_append, List.reverse_append]
  rfl

theorem tableTypes_length (e : Ty) (m : Nat) : (tableTypes e m).length = m := by
  rw [tableTypes, List.length_reverse, List.length_map, List.length_range]

theorem newTypes_tables {t : Ty} (h : t.arraySizes ≠ []) (a : Nat) :
    getDecomposedMultiDimArrayType (.ptr t a) = some (tableTypes t.arrayElem (t.arraySizes.length + 1)) := by
  cases t with
  | array n e =>
    rw [Nat.add_comm]
    rfl
  | _ => exact absurd rfl h

/- A table is a pointer to the next one. -/
theorem table_ty (e : Ty) (m : Nat) : Ty.getUnqual^[m + 1] e = .ptr (Ty.getUnqual^[m] e) 0 :=
  Function.iterate_succ_apply' Ty.getUnqual m e

/- What was inserted keeps the verifier's rules. -/
def IRBuilder.WellTyped (s : IRBuilder) : Prop := ∀ i ∈ s.insts, i.WellTyped

theorem insertInst_wellTyped {s : IRBuilder} (h : s.WellTyped) {op : Opcode} {ty : Ty} {operands : List Value}
    (hnew : Inst.WellTyped ⟨s.nextId, op, ty, operands, [], []⟩) : (s.insertInst op ty operands).2.WellTyped := by
  intro i hi
  rcases List.mem_append.mp hi with hi | hi
  · exact h i hi
  · exact List.mem_singleton.mp hi ▸ hnew

/- A GEP with one index, which may be a vector. -/
theorem indexGEP_wellTyped {s : IRBuilder} (hs : s.WellTyped) {lastPtr i : Value} {t : Ty} {a : Nat}
    (hty : lastPtr.ty = .ptr t a) (hint : i.ty.isIntOrIntVectorTy = true) :
    (indexGEP s lastPtr (.ptr t a) i).2.WellTyped := by
  have hptr : lastPtr.ty.lanes = none := by
    rw [hty]
    rfl
  refine insertInst_wellTyped hs ⟨lastPtr, [i], t, a, rfl, rfl, .inl hty, fun v hv => List.mem_singleton.mp hv ▸ hint,
    fun v hv w hw => ?_, t, rfl, rfl⟩
  rcases List.mem_cons.mp hv with rfl | hv
  · exact .inl hptr
  · rcases List.mem_cons.mp hw with rfl | hw
    · exact .inr (.inl hptr)
    · rw [List.mem_singleton.mp hv, List.mem_singleton.mp hw]
      exact .inr (.inr rfl)

/- Indices that lead on through the tables are no vectors. -/
theorem decomposeIndices_scalar {ts : List Ty} {is : List Value} {s : IRBuilder} {lastPtr : Value}
    {r : Value × IRBuilder}
    (h : decomposeIndices s lastPtr ts is = some r) : ∀ i ∈ is.dropLast, i.ty.lanes = none := by
  refine decomposeIndices_induct (motive := fun _ _ _ is => ∀ i ∈ is.dropLast, i.ty.lanes = none) ?_ ?_ h
  · intro s lastPtr t ts i _ _ i hi
    cases hi
  · intro s lastPtr t ts i j is _ hptr ih
    rw [List.dropLast_cons_cons]
    refine List.forall_mem_cons.mpr ⟨?_, ih⟩
    by_contra hvec
    obtain ⟨k, hk⟩ := Option.ne_none_iff_exists'.mp hvec
    have hgep : (gepReturnType t [lastPtr, i]).isPointerTy = false := by
      unfold gepReturnType
      rw [List.findSome?_cons, List.findSome?_cons, hk]
      cases lastPtr.ty.lanes <;> rfl
    have hty : (indexGEP s lastPtr t i).1.ty = gepReturnType t [lastPtr, i] := rfl
    rw [hty, hgep] at hptr
    cases hptr

/- One GEP for each table, and a load between two of them. -/
theorem decomposeIndices_tables {is : List Value} {s : IRBuilder} {lastPtr : Value} (hlen : is.length = m + 1)
    (hty : lastPtr.ty = Ty.getUnqual^[m + 1] e) (hint : ∀ i ∈ is, i.ty.isIntOrIntVectorTy = true)
    (hscalar : ∀ i ∈ is.dropLast, i.ty.lanes = none) (hs : s.WellTyped) :
    ∃ r, decomposeIndices s lastPtr (tableTypes e (m + 1)) is = some r ∧ r.2.WellTyped ∧
      r.1.ty = gepReturnType e.getUnqual is := by
  induction m generalizing is s lastPtr with
  | zero =>
    obtain ⟨i, rfl⟩ := List.length_eq_one_iff.mp hlen
    have hptr : lastPtr.ty = .ptr e 0 := hty
    refine ⟨indexGEP s lastPtr e.getUnqual i, ?_, indexGEP_wellTyped hs hptr (hint i (List.mem_singleton_self i)), ?_⟩
    · have hpointee : lastPtr.ty.pointee = e.getUnqual.pointee := by rw [hptr]; rfl
      rw [tableTypes_succ]
      exact (decomposeIndices_last ..).trans (if_neg (not_not.mpr hpointee))
    · exact gepReturnType_cons (by rw [hptr]; rfl)
  | succ m ih =>
    match is with
    | [] => exact nomatch hlen
    | [_] => exact nomatch Nat.succ.inj hlen
    | i :: j :: is =>
      rw [List.dropLast_cons_cons] at hscalar
      obtain ⟨hi, hrest⟩ := List.forall_mem_cons.mp hscalar
      obtain ⟨hii, hinti⟩ := List.forall_mem_cons.mp hint
      have htable := table_ty e (m + 1)
      have hptr : lastPtr.ty = .ptr (Ty.getUnqual^[m + 1] e) 0 := hty.trans htable
      have hlanes : ∀ v ∈ [lastPtr, i], v.ty.lanes = none :=
        List.forall_mem_cons.mpr ⟨by rw [hptr]; rfl, List.forall_mem_singleton.mpr hi⟩
      have hgepTy : (indexGEP s lastPtr (Ty.getUnqual^[m + 2] e) i).1.ty = .ptr (Ty.getUnqual^[m + 1] e) 0 :=
        (gepReturnType_eq hlanes).trans htable
      have hgep : (indexGEP s lastPtr (Ty.getUnqual^[m + 2] e) i).2.WellTyped := by
        rw [htable]
        exact indexGEP_wellTyped hs hptr hii
      have hloadTy : (Ty.getUnqual^[m + 2] e).pointee = Ty.getUnqual^[m + 1] e := by
        rw [htable]
        rfl
      have hload : (indexLoad s lastPtr (Ty.getUnqual^[m + 2] e) i).2.WellTyped := by
        refine insertInst_wellTyped hgep ⟨_, 0, rfl, ?_⟩
        rw [hgepTy, hloadTy]
      have hptrTy : (indexLoad s lastPtr (Ty.getUnqual^[m + 2] e) i).1.ty = Ty.getUnqual^[m + 1] e := hloadTy
      obtain ⟨r, hr, hwell, hrty⟩ := ih (Nat.succ.inj hlen) hptrTy hinti hrest hload
      refine ⟨r, ?_, hwell, hrty.trans (gepReturnType_cons hi).symm⟩
      rw [tableTypes_succ, decomposeIndices_cons, if_neg, if_neg, hr]
      · rw [hgepTy]
        exact not_not.mpr rfl
      · rw [hptr, hloadTy]
        exact not_not.mpr rfl

end Tables

section Emitted

/- What `DecomposeMultiDimArrayRefs` emits before it replaces the uses of the GEP. -/
def decomposeEmits (base : Value) (indices : List Value) (n : Nat) : Option (Value × IRBuilder) :=
  (getDecomposedMultiDimArrayType base.ty).bind fun newTypes =>
  (newTypes.head?).bind fun t =>
    let c := (⟨n, []⟩ : IRBuilder).insertInst .cast t [base]
    decomposeIndices c.2 c.1 newTypes indices

/- What `FlattenMultiDimArrayIndices` emits before it replaces the uses of the GEP. -/
def flattenEmits (base : Value) (indices : List Value) (sizes : List Nat) (n : Nat) : Option (Value × IRBuilder) :=
  (scaleIndices ⟨n, []⟩ (dimProducts 1 sizes.reverse) indices.tail.reverse).bind fun r =>
  (r.1.head?).bind fun first => (sumIndices r.2 first r.1.tail).bind fun sum =>
  (getDecomposedMultiDimArrayType base.ty).bind fun newTypes =>
  (newTypes.getLast?).bind fun t =>
    let c := sum.2.insertInst .cast t [base]
    some (c.2.insertInst .getElementPtr t [c.1, sum.1])

/- `replaceAllUsesWith` asserts that both values have one type. -/
theorem flattenGEP_emits (gep : Inst) (base : Value) (indices : List Value) (sizes : List Nat) (n : Nat) :
    flattenGEP gep base indices sizes n =
      (flattenEmits base indices sizes n).bind fun r => if gep.ty ≠ r.1.ty then none else some r := by
  simp only [flattenGEP, flattenEmits, Option.bind_assoc, Option.bind_some]
  rfl

theorem decompose_emits {M : Module} {gep : Inst} {base : Value} {indices : List Value} {source : Ty} {a : Nat}
    (hops : gep.operands = base :: indices) (hbase : base.ty = .ptr source a) (hnest : source.arraySizes ≠ [])
    (hlen : indices.length = source.arraySizes.length + 1) :
    decomposeMultiDimArrayRefs M gep = (decomposeEmits base indices M.nextId).bind fun r =>
      if gep.ty ≠ r.1.ty then none
      else some ({ (M.replaceAllUsesWith gep.val r.1).replaceInst gep.id r.2.insts with nextId := r.2.nextId },
        some r.1) := by
  have htypes := newTypes_tables hnest a
  have hpos := List.length_pos_iff.mpr hnest
  have htwo : ¬ indices.length < 2 := by omega
  have hcount : (tableTypes source.arrayElem (source.arraySizes.length + 1)).length = indices.length := by
    rw [tableTypes_length, hlen]
  unfold decomposeMultiDimArrayRefs decomposeEmits
  rw [hops]
  dsimp only
  rw [if_neg htwo, hbase, htypes, Option.bind_some, Option.bind_some, if_neg (not_not.mpr hcount), Option.bind_assoc]

variable {gep : Inst} {base : Value} {indices : List Value} {source : Ty} {a : Nat}

/- The indices lead from the nest to its elements. -/
theorem indexed_nest {t : Ty} {is : List Value} (hlen : is.length = t.arraySizes.length) :
    t.indexed is = some t.arrayElem := by
  induction t generalizing is with
  | array n e ih =>
    cases is with
    | nil => exact nomatch hlen
    | cons i is => exact ih (Nat.succ.inj hlen)
  | _ =>
    obtain rfl := List.length_eq_zero_iff.mp hlen
    rfl

theorem IR.ValidGEP.nest_ty (h : ValidGEP gep base indices source a) (hbase : base.ty = .ptr source a)
    (hlen : indices.length = source.arraySizes.length + 1) :
    gep.ty = gepReturnType (.ptr source.arrayElem a) indices := by
  obtain ⟨u, hu, hty⟩ := h.ty
  have htail : indices.tail.length = source.arraySizes.length := by
    rw [List.length_tail, hlen]
    rfl
  rw [indexed_nest htail] at hu
  obtain rfl := Option.some.inj hu
  rw [hty, h.operands]
  exact gepReturnType_cons (by rw [hbase]; rfl)

/- The chain goes through while no index but the last is a vector. -/
theorem decomposeEmits_iff (h : ValidGEP gep base indices source a) (hbase : base.ty = .ptr source a)
    (hnest : source.arraySizes ≠ []) (hlen : indices.length = source.arraySizes.length + 1) (n : Nat) :
    ((∀ i ∈ indices.dropLast, i.ty.lanes = none) → ∃ r, decomposeEmits base indices n = some r ∧ r.2.WellTyped ∧
      r.1.ty = gepReturnType source.arrayElem.getUnqual indices) ∧
    ∀ r, decomposeEmits base indices n = some r → ∀ i ∈ indices.dropLast, i.ty.lanes = none := by
  have hrun : decomposeEmits base indices n =
      decomposeIndices
        ((⟨n, []⟩ : IRBuilder).insertInst .cast (Ty.getUnqual^[source.arraySizes.length + 1] source.arrayElem) [base]).2
        ((⟨n, []⟩ : IRBuilder).insertInst .cast (Ty.getUnqual^[source.arraySizes.length + 1] source.arrayElem) [base]).1
        (tableTypes source.arrayElem (source.arraySizes.length + 1)) indices := by
    unfold decomposeEmits
    rw [hbase, newTypes_tables hnest a, Option.bind_some, tableTypes_succ]
    rfl
  rw [hrun]
  constructor
  · intro hscalar
    refine decomposeIndices_tables hlen rfl h.int hscalar (insertInst_wellTyped ?_ trivial)
    exact fun i hi => absurd hi List.not_mem_nil
  · exact fun r hr => decomposeIndices_scalar hr

end Emitted

section Arithmetic

theorem createBinOp_ty {op : Opcode} {fold : Const → Const → Const} (hfold : ∀ a b, (fold a b).ty = a.ty)
    {s : IRBuilder} {a b : Value} {r : Value × IRBuilder} (hr : IRBuilder.createBinOp op fold s a b = some r) :
    a.ty = b.ty ∧ r.1.ty = a.ty := by
  obtain ⟨hty, ⟨c, d, rfl, rfl, rfl⟩ | rfl⟩ := createBinOp_cases hr
  · exact ⟨hty, hfold c d⟩
  · exact ⟨hty, rfl⟩

theorem createBinOp_wellTyped {op : Opcode} {fold : Const → Const → Const} (hop : op = .mul ∨ op = .add)
    {s : IRBuilder} (hs : s.WellTyped) {a b : Value} {r : Value × IRBuilder}
    (hr : IRBuilder.createBinOp op fold s a b = some r) : r.2.WellTyped := by
  obtain ⟨-, ⟨c, d, -, -, rfl⟩ | rfl⟩ := createBinOp_cases hr
  · exact hs
  · rcases hop with rfl | rfl
    · exact insertInst_wellTyped hs trivial
    · exact insertInst_wellTyped hs trivial

/- All that is scaled are integers of 64 bits. -/
theorem scaleIndices_ty {ps : List Nat} {s : IRBuilder} {vs : List Value} {r : List Value × IRBuilder}
    (hr : scaleIndices s ps vs = some r) :
    (∀ v ∈ vs.take ps.length, v.ty = .int 64) ∧ ∀ v ∈ r.1, v.ty = .int 64 := by
  induction ps generalizing s vs r with
  | nil =>
    cases hr
    exact ⟨fun v hv => absurd hv List.not_mem_nil, fun v hv => absurd hv List.not_mem_nil⟩
  | cons p ps ih =>
    cases vs with
    | nil => exact nomatch hr
    | cons v vs =>
      obtain ⟨q, hq, hr⟩ := Option.bind_eq_some_iff.mp hr
      obtain ⟨t, ht, hr⟩ := Option.map_eq_some_iff.mp hr
      obtain ⟨hty, hqty⟩ := createBinOp_ty foldMul_ty hq
      obtain ⟨h1, h2⟩ := ih ht
      cases hr
      have hv : v.ty = .int 64 := hty
      exact ⟨List.forall_mem_cons.mpr ⟨hv, h1⟩, List.forall_mem_cons.mpr ⟨hqty.trans hv, h2⟩⟩

theorem sumIndices_ty {vs : List Value} {s : IRBuilder} {sum : Value} {t : Ty} (hsum : sum.ty = t)
    {r : Value × IRBuilder} (hr : sumIndices s sum vs = some r) : r.1.ty = t := by
  induction vs generalizing s sum with
  | nil =>
    cases hr
    exact hsum
  | cons v vs ih =>
    obtain ⟨q, hq, hr⟩ := Option.bind_eq_some_iff.mp hr
    exact ih ((createBinOp_ty foldAdd_ty hq).2.trans hsum) hr

theorem tableTypes_getLast? (e : Ty) (m : Nat) : (tableTypes e (m + 1)).getLast? = some e.getUnqual := by
  rw [tableTypes, List.getLast?_reverse, List.head?_map, List.range_succ_eq_map]
  rfl

variable {gep : Inst} {base : Value} {indices : List Value} {source : Ty} {a : Nat}

/- The flattened GEP is applied to the cast pointer and the sum. -/
theorem flattenEmits_wellTyped (hbase : base.ty = .ptr source a) (hnest : source.arraySizes ≠ [])
    (hlen : indices.length = source.arraySizes.length + 1) {n : Nat} {r : Value × IRBuilder}
    (hr : flattenEmits base indices source.arraySizes n = some r) :
    (∀ i ∈ indices.tail, i.ty = .int 64) ∧ r.2.WellTyped ∧ r.1.ty = source.arrayElem.getUnqual := by
  unfold flattenEmits at hr
  obtain ⟨q, hq, hr⟩ := Option.bind_eq_some_iff.mp hr
  obtain ⟨first, hfirst, hr⟩ := Option.bind_eq_some_iff.mp hr
  obtain ⟨sum, hsum, hr⟩ := Option.bind_eq_some_iff.mp hr
  obtain ⟨newTypes, htypes, hr⟩ := Option.bind_eq_some_iff.mp hr
  obtain ⟨t, ht, hr⟩ := Option.bind_eq_some_iff.mp hr
  rw [hbase, newTypes_tables hnest a] at htypes
  obtain rfl := Option.some.inj htypes
  rw [tableTypes_getLast?] at ht
  obtain rfl := Option.some.inj ht
  obtain ⟨htail, hscaled⟩ := scaleIndices_ty hq
  have hsumTy : sum.1.ty = .int 64 := sumIndices_ty (hscaled first (List.mem_of_mem_head? hfirst)) hsum
  have hstart : (⟨n, []⟩ : IRBuilder).WellTyped := fun i hi => absurd hi List.not_mem_nil
  have hscale := scaleIndices_run (P := IRBuilder.WellTyped) (fun _ _ _ _ h hr =>
    createBinOp_wellTyped (.inl rfl) h hr) _ hstart hq
  have hsums := sumIndices_run (P := IRBuilder.WellTyped) (fun _ _ _ _ h hr =>
    createBinOp_wellTyped (.inr rfl) h hr) _ hscale hsum
  have hcast : (sum.2.insertInst .cast source.arrayElem.getUnqual [base]).2.WellTyped :=
    insertInst_wellTyped hsums trivial
  have hlanes : ∀ v ∈ [(sum.2.insertInst .cast source.arrayElem.getUnqual [base]).1, sum.1], v.ty.lanes = none :=
    List.forall_mem_cons.mpr ⟨rfl, List.forall_mem_singleton.mpr (by rw [hsumTy]; rfl)⟩
  have hptrTy : (sum.2.insertInst .cast source.arrayElem.getUnqual [base]).1.ty = .ptr source.arrayElem 0 := rfl
  have hgep := indexGEP_wellTyped (i := sum.1) hcast hptrTy (by rw [hsumTy]; rfl)
  rw [indexGEP, gepReturnType_eq hlanes] at hgep
  obtain rfl := Option.some.inj hr
  refine ⟨fun i hi => htail i ?_, hgep, rfl⟩
  have hall : indices.tail.reverse.length ≤ (dimProducts 1 source.arraySizes.reverse).length := by
    rw [List.length_reverse, List.length_tail, hlen, dimProducts_length, List.length_reverse]
    omega
  rw [List.take_of_length_le hall]
  exact List.mem_reverse.mpr hi

/- What is asked of the instructions that both rewritings emit for a GEP. -/
structure TypedRewrites (gep : Inst) (base : Value) (indices : List Value) (source : Ty) (n : Nat) : Prop where
  decompose : ∃ r, decomposeEmits base indices n = some r ∧ r.2.WellTyped ∧ r.1.ty = gep.ty
  flatten : 2 ≤ source.arraySizes.length → ∀ r, flattenEmits base indices source.arraySizes n = some r →
    r.2.WellTyped ∧ r.1.ty = gep.ty

/- The pointers are typed for GEPs in the default address space with no vector before their last index. -/
theorem typedRewrites_iff (h : ValidGEP gep base indices source a) (hbase : base.ty = .ptr source a)
    (hnest : source.arraySizes ≠ []) (hlen : indices.length = source.arraySizes.length + 1) (n : Nat) :
    TypedRewrites gep base indices source n ↔ a = 0 ∧ ∀ i ∈ indices.dropLast, i.ty.lanes = none := by
  have hty := h.nest_ty hbase hlen
  obtain ⟨hthrough, hscalar⟩ := decomposeEmits_iff h hbase hnest hlen n
  constructor
  · rintro ⟨⟨r, hr, -, hrty⟩, -⟩
    have hvec := hscalar r hr
    obtain ⟨r', hr', -, hrty'⟩ := hthrough hvec
    obtain rfl := Option.some.inj (hr.symm.trans hr')
    rw [hrty', hty] at hrty
    exact ⟨(Ty.ptr.inj (gepReturnType_inj hrty)).2.symm, hvec⟩
  · rintro ⟨rfl, hvec⟩
    refine ⟨?_, fun htwo r hr => ?_⟩
    · obtain ⟨r, hr, hwell, hrty⟩ := hthrough hvec
      exact ⟨r, hr, hwell, hrty.trans hty.symm⟩
    · obtain ⟨htail, hwell, hrty⟩ := flattenEmits_wellTyped hbase hnest hlen hr
      have hlanes : ∀ i ∈ indices, i.ty.lanes = none := by
        match indices with
        | [] => exact nomatch hlen
        | [i] => exact absurd (Nat.succ.inj hlen).symm (Nat.ne_of_gt (Nat.lt_of_lt_of_le Nat.zero_lt_two htwo))
        | i :: j :: is =>
          refine List.forall_mem_cons.mpr ⟨hvec i (List.mem_cons_self ..), fun k hk => ?_⟩
          rw [htail k hk]
          rfl
      rw [gepReturnType_eq hlanes] at hty
      exact ⟨hwell, hrty.trans hty.symm⟩

theorem typedRewrites_iff_matrixGEP :
    TypedRewrites matrixGEP (.arg 9 0 (.ptr matrixTy 0)) [.arg 9 1 (.int 64), .arg 9 2 (.int 64), .arg 9 3 (.int 64)]
        matrixTy 20 ↔
      (0 : Nat) = 0 ∧ ∀ i ∈ [Value.arg 9 1 (.int 64), .arg 9 2 (.int 64), .arg 9 3 (.int 64)].dropLast,
      i.ty.lanes = none :=
  typedRewrites_iff ⟨rfl, rfl, .inl rfl, by decide, by decide, _, rfl, rfl⟩ rfl (by decide) rfl 20

/- `a[i][j][k]` for a matrix in the address space 1. -/
def sharedMatrixGEP : Inst :=
  ⟨10, .getElementPtr, .ptr (.int 32) 1, [.arg 9 0 (.ptr matrixTy 1),
    .arg 9 1 (.int 64), .arg 9 2 (.int 64), .arg 9 3 (.int 64)], [], []⟩

/- Both rewritings end with a pointer in the address space 0, and stop when they replace the uses. -/
theorem sharedMatrixGEP_mistyped :
    ValidGEP sharedMatrixGEP (.arg 9 0 (.ptr matrixTy 1)) [.arg 9 1 (.int 64), .arg 9 2 (.int 64), .arg 9 3 (.int 64)]
      matrixTy 1 ∧
    (∃ r, decomposeEmits (.arg 9 0 (.ptr matrixTy 1))
        [.arg 9 1 (.int 64), .arg 9 2 (.int 64), .arg 9 3 (.int 64)] 20 =
      some r ∧ r.1.ty = .ptr (.int 32) 0) ∧
    (∃ r, flattenEmits (.arg 9 0 (.ptr matrixTy 1))
        [.arg 9 1 (.int 64), .arg 9 2 (.int 64), .arg 9 3 (.int 64)] [2, 3] 20 =
      some r ∧ r.1.ty = .ptr (.int 32) 0) ∧
    decomposeMultiDimArrayRefs matrixRead sharedMatrixGEP = none ∧
    flattenMultiDimArrayIndices matrixRead sharedMatrixGEP = none ∧
    ¬ TypedRewrites sharedMatrixGEP (.arg 9 0 (.ptr matrixTy 1))
      [.arg 9 1 (.int 64), .arg 9 2 (.int 64), .arg 9 3 (.int 64)] matrixTy 20 := by
  refine ⟨⟨rfl, rfl, .inl rfl, by decide, by decide, _, rfl, rfl⟩, ⟨_, rfl, rfl⟩, ⟨_, rfl, rfl⟩, rfl, rfl, ?_⟩
  rintro ⟨⟨r, hr, -, hty⟩, -⟩
  obtain rfl := Option.some.inj hr
  exact absurd hty (by decide)

end Arithmetic

end Atrox
