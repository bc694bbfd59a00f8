import Atrox.Transforms.TypedRefs

/-!
# References the rewritings are to leave alone

Rows of a matrix, fields of a struct and elements of a vector. Flattening takes one index for each
dimension of the type, whatever the GEP has.
-/

namespace Atrox
open IR

section Flatten

/- Levels of the nest of arrays that the GEP points to, and its indices. -/
def gepLevels (gep : Inst) : Nat :=
  match gep.operands with
  | [] => 0
  | base :: _ => (getDecomposedArraySizes base.ty).length

def gepIndices (gep : Inst) : List Value := gep.operands.tail

/- The loop over `scaledIndices` comes to a product that has no index. -/
def readsPast (s : IRBuilder) : List Nat → List Value → Bool
  | [], _ => false
  | _ :: _, [] => true
  | p :: ps, v :: vs =>
    match s.createMul v (getInt64 p) with
    | none => false
    | some r => readsPast r.2 ps vs

/- `FlattenMultiDimArrayIndices` reads behind the end of `indices`. -/
def flattenReadsPast (M : Module) (gep : Inst) : Bool :=
  match gep.operands with
  | [] => false
  | base :: indices =>
    let sizes := getDecomposedArraySizes base.ty
    if sizes.length ≤ 1 then false
    else readsPast ⟨M.nextId, []⟩ (dimProducts 1 sizes.reverse) indices.tail.reverse

/- Without the index that is missing there is nothing to multiply. -/
theorem readsPast_none {s : IRBuilder} {ps : List Nat} {vs : List Value} (h : readsPast s ps vs = true) :
    scaleIndices s ps vs = none := by
  induction ps generalizing s vs with
  | nil => exact nomatch h
  | cons p ps ih =>
    cases vs with
    | nil => rfl
    | cons v vs =>
      rw [readsPast] at h
      rw [scaleIndices]
      cases hm : s.createMul v (getInt64 p) with
      | none => rfl
      | some r =>
        rw [hm] at h
        rw [Option.bind_some, ih h]
        rfl

/- With an index for each product none is missing. -/
theorem readsPast_enough {s : IRBuilder} {ps : List Nat} {vs : List Value} (h : ps.length ≤ vs.length) :
    readsPast s ps vs = false := by
  induction ps generalizing s vs with
  | nil => rfl
  | cons p ps ih =>
    cases vs with
    | nil => exact absurd h (Nat.not_succ_le_zero _)
    | cons v vs =>
      rw [readsPast]
      split
      · rfl
      · exact ih (Nat.le_of_succ_le_succ h)

/- What flattening is to do with a GEP that it cannot handle, and with every GEP. -/
def LeftAlone (M : Module) (gep : Inst) : Prop :=
  (2 ≤ gepLevels gep → (gepIndices gep).length ≠ gepLevels gep + 1 →
    flattenMultiDimArrayIndices M gep = some (M, none)) ∧
  flattenReadsPast M gep = false

/- A nest of at least two levels is flattened or the flattening fails. -/
theorem flatten_levels {M : Module} {gep : Inst} (h : 2 ≤ gepLevels gep) :
    flattenMultiDimArrayIndices M gep ≠ some (M, none) := by
  unfold flattenMultiDimArrayIndices
  unfold gepLevels at h
  split
  · next hops =>
    rw [hops] at h
    exact absurd h (Nat.not_succ_le_zero 1)
  · next base indices hops =>
    rw [hops] at h
    dsimp only at h ⊢
    rw [if_neg (Nat.not_le_of_lt h)]
    intro hrun
    obtain ⟨r, -, hr⟩ := Option.map_eq_some_iff.mp hrun
    exact nomatch (Prod.mk.inj hr).2

/- A read behind the end stops the flattening. -/
theorem flattenReadsPast_none {M : Module} {gep : Inst} (h : flattenReadsPast M gep = true) :
    flattenMultiDimArrayIndices M gep = none := by
  unfold flattenReadsPast at h
  unfold flattenMultiDimArrayIndices
  cases hops : gep.operands with
  | nil =>
    rw [hops] at h
    exact nomatch h
  | cons base indices =>
    rw [hops] at h
    dsimp only at h ⊢
    split at h
    · exact nomatch h
    · next hle =>
      rw [if_neg hle, flattenGEP, readsPast_none h]
      rfl

/- With an index more than there are levels none is missing. -/
theorem flattenReadsPast_enough {M : Module} {gep : Inst}
    (h : gepLevels gep ≤ 1 ∨ (gepIndices gep).length = gepLevels gep + 1) : flattenReadsPast M gep = false := by
  unfold flattenReadsPast
  unfold gepLevels gepIndices at h
  split
  · rfl
  · next base indices hops =>
    rw [hops] at h
    dsimp only at h ⊢
    split
    · rfl
    · next hle =>
      rcases h with hone | heq
      · exact absurd hone hle
      · refine readsPast_enough ?_
        rw [List.tail_cons] at heq
        rw [dimProducts_length, List.length_reverse, List.length_reverse, List.length_tail]
        omega

/- Reading behind the end stops the flattening, and what it cannot handle is left alone exactly if the GEP has
an index for the pointer and one for each level. -/
theorem leftAlone_iff (M : Module) (gep : Inst) :
    (flattenReadsPast M gep = true → flattenMultiDimArrayIndices M gep = none) ∧
    (LeftAlone M gep ↔ gepLevels gep ≤ 1 ∨ (gepIndices gep).length = gepLevels gep + 1) := by
  refine ⟨flattenReadsPast_none, ?_⟩
  constructor
  · rintro ⟨halone, -⟩
    by_contra hno
    rw [not_or, Nat.not_le] at hno
    exact flatten_levels hno.1 (halone hno.1 hno.2)
  · intro h
    refine ⟨fun hlevels hlen => ?_, flattenReadsPast_enough h⟩
    rcases h with hle | heq
    · omega
    · exact absurd heq hlen

/- `a[i][j]` for `int (*a)[2][3]`: a row of a matrix. -/
def rowGEP : Inst :=
  ⟨10, .getElementPtr, .ptr (.array 3 (.int 32)) 0,
    [.arg 9 0 (.ptr matrixTy 0), .arg 9 1 (.int 64), .arg 9 2 (.int 64)], [], []⟩

/- `a[i][j][k].y`, with fields `x` and `y`. -/
def fieldGEP : Inst :=
  ⟨10, .getElementPtr, .ptr (.int 32) 0,
    [.arg 9 0 (.ptr (.array 2 (.array 3 (.structOf [.int 32, .int 32]))) 0), .arg 9 1 (.int 64), .arg 9 2 (.int 64),
      .arg 9 3 (.int 64), .const (.int 32 1)], [], []⟩

/- Both are valid. For the row an index is read that is not there, and in the place of the field stands
a pointer of another type. -/
theorem rowGEP_reads_past :
    ValidGEP rowGEP (.arg 9 0 (.ptr matrixTy 0)) [.arg 9 1 (.int 64), .arg 9 2 (.int 64)] matrixTy 0 ∧
    gepLevels rowGEP = 2 ∧ (gepIndices rowGEP).length = 2 ∧ flattenReadsPast matrixRead rowGEP = true ∧
    flattenMultiDimArrayIndices matrixRead rowGEP = none ∧ ¬ LeftAlone matrixRead rowGEP ∧
    ValidGEP fieldGEP (.arg 9 0 (.ptr (.array 2 (.array 3 (.structOf [.int 32, .int 32]))) 0))
      [.arg 9 1 (.int 64), .arg 9 2 (.int 64), .arg 9 3 (.int 64), .const (.int 32 1)]
      (.array 2 (.array 3 (.structOf [.int 32, .int 32]))) 0 ∧
    gepLevels fieldGEP = 2 ∧ (gepIndices fieldGEP).length = 4 ∧
    flattenMultiDimArrayIndices matrixRead fieldGEP = none ∧
    ¬ LeftAlone matrixRead fieldGEP := by
  have hrow : flattenReadsPast matrixRead rowGEP = true := rfl
  have hfield : flattenMultiDimArrayIndices matrixRead fieldGEP = none := rfl
  refine ⟨⟨rfl, rfl, .inl rfl, by decide, by decide, _, rfl, rfl⟩, rfl, rfl, hrow, rfl, ?_,
    ⟨rfl, rfl, .inl rfl, by decide, by decide, _, rfl, rfl⟩, rfl, rfl, hfield, ?_⟩
  · rintro ⟨-, hpast⟩
    rw [hrow] at hpast
    exact nomatch hpast
  · rintro ⟨halone, -⟩
    have hsome := halone (Nat.le_refl 2) (by decide)
    rw [hfield] at hsome
    exact nomatch hsome

end Flatten

section Decompose
variable {M : Module} {gep : Inst} {base : Value} {indices : List Value} {source : Ty} {a : Nat}

/- One index for the pointer, and one for each level of the nest. -/
def IndexesNest (source : Ty) (indices : List Value) : Prop :=
  source.arraySizes ≠ [] ∧ indices.length = source.arraySizes.length + 1

/- What `DecomposeMultiDimArrayRefs` is to do with a GEP. -/
structure SkipsOthers (M : Module) (gep : Inst) (base : Value) (indices : List Value) (source : Ty) : Prop where
  rewrites : IndexesNest source indices → ∃ M' v, decomposeMultiDimArrayRefs M gep = some (M', some v)
  skips : ¬ IndexesNest source indices → decomposeMultiDimArrayRefs M gep = some (M, none)
  typed : getDecomposedMultiDimArrayType base.ty ≠ none

/- Without an array the basic type is null. -/
theorem newTypes_null {t : Ty} (h : t.arraySizes = []) (a : Nat) :
    getDecomposedMultiDimArrayType (.ptr t a) = none := by
  cases t with
  | array n e => exact nomatch h
  | _ => rfl

theorem newTypes_vector (n : Nat) (t : Ty) : getDecomposedMultiDimArrayType (.vector n t) = some [] := rfl

/- With another number of types than indices nothing is rewritten. -/
theorem decompose_skip (hops : gep.operands = base :: indices) (htwo : 2 ≤ indices.length) {newTypes : List Ty}
    (htypes : getDecomposedMultiDimArrayType base.ty = some newTypes) (hne : newTypes.length ≠ indices.length) :
    decomposeMultiDimArrayRefs M gep = some (M, none) := by
  unfold decomposeMultiDimArrayRefs
  rw [hops]
  dsimp only
  rw [if_neg (Nat.not_lt_of_le htwo), htypes, Option.bind_some, if_pos hne]

/- A GEP with an index for each level is rewritten when the pointers fit. -/
theorem decompose_nest_iff (h : ValidGEP gep base indices source a) (hbase : base.ty = .ptr source a)
    (hnest : IndexesNest source indices) :
    (∃ M' v, decomposeMultiDimArrayRefs M gep = some (M', some v)) ↔
      a = 0 ∧ ∀ i ∈ indices.dropLast, i.ty.lanes = none := by
  have hty := h.nest_ty hbase hnest.2
  obtain ⟨hthrough, hscalar⟩ := decomposeEmits_iff h hbase hnest.1 hnest.2 M.nextId
  rw [decompose_emits h.operands hbase hnest.1 hnest.2]
  constructor
  · rintro ⟨M', v, hrun⟩
    obtain ⟨r, hr, hrun⟩ := Option.bind_eq_some_iff.mp hrun
    have hvec := hscalar r hr
    obtain ⟨r', hr', -, hrty⟩ := hthrough hvec
    obtain rfl := Option.some.inj (hr.symm.trans hr')
    split at hrun
    · exact nomatch hrun
    · next heq =>
      rw [not_not, hrty, hty] at heq
      exact ⟨(Ty.ptr.inj (gepReturnType_inj heq)).2, hvec⟩
  · rintro ⟨rfl, hvec⟩
    obtain ⟨r, hr, -, hrty⟩ := hthrough hvec
    rw [hr, Option.bind_some, if_neg (not_not.mpr (hty.trans hrty.symm))]
    exact ⟨_, _, rfl⟩

theorem skipsOthers_vector {n : Nat} (h : ValidGEP gep base indices source a) (htwo : 2 ≤ indices.length)
    (hbase : base.ty = .vector n (.ptr source a)) :
    SkipsOthers M gep base indices source ↔ ¬ IndexesNest source indices := by
  have htypes : getDecomposedMultiDimArrayType base.ty = some [] := hbase ▸ newTypes_vector n _
  have hskip : decomposeMultiDimArrayRefs M gep = some (M, none) :=
    decompose_skip h.operands htwo htypes (Nat.ne_of_lt (Nat.lt_of_lt_of_le Nat.zero_lt_two htwo))
  constructor
  · intro hs hnest
    obtain ⟨M', v, hrun⟩ := hs.rewrites hnest
    exact nomatch hskip.symm.trans hrun
  · exact fun hno => ⟨fun hnest => absurd hnest hno, fun _ => hskip, by rw [htypes]; exact Option.some_ne_none _⟩

theorem skipsOthers_pointer (h : ValidGEP gep base indices source a) (htwo : 2 ≤ indices.length)
    (hbase : base.ty = .ptr source a) : SkipsOthers M gep base indices source ↔
      source.arraySizes ≠ [] ∧ (IndexesNest source indices → a = 0 ∧ ∀ i ∈ indices.dropLast, i.ty.lanes = none) := by
  by_cases harray : source.arraySizes = []
  · have hnull : getDecomposedMultiDimArrayType base.ty = none := hbase ▸ newTypes_null harray a
    exact iff_of_false (fun hs => hs.typed hnull) fun hc => hc.1 harray
  · have htypes := newTypes_tables harray a
    rw [← hbase] at htypes
    have hskip : ¬ IndexesNest source indices → decomposeMultiDimArrayRefs M gep = some (M, none) := by
      intro hno
      refine decompose_skip h.operands htwo htypes fun he => hno ⟨harray, ?_⟩
      rw [← he, tableTypes_length]
    constructor
    · exact fun hs => ⟨harray, fun hnest => (decompose_nest_iff h hbase hnest).mp (hs.rewrites hnest)⟩
    · rintro ⟨-, hfit⟩
      refine ⟨fun hnest => (decompose_nest_iff h hbase hnest).mpr (hfit hnest), hskip, ?_⟩
      rw [htypes]
      exact Option.some_ne_none _

/- A pointer to no array asks for a pointer to null. What else goes wrong are nests in another address
space, vectors of indices and vectors of pointers to nests. -/
theorem skipsOthers_iff (h : ValidGEP gep base indices source a) (htwo : 2 ≤ indices.length) :
    SkipsOthers M gep base indices source ↔
      (base.ty.isPointerTy = true → source.arraySizes ≠ []) ∧
      (IndexesNest source indices → base.ty.isPointerTy = true ∧ a = 0 ∧
      ∀ i ∈ indices.dropLast, i.ty.lanes = none) := by
  rcases h.base_ty with hbase | ⟨n, hbase⟩
  · have hptr : base.ty.isPointerTy = true := hbase ▸ rfl
    rw [skipsOthers_pointer h htwo hbase]
    simp only [hptr, true_implies, true_and]
  · have hptr : base.ty.isPointerTy = false := hbase ▸ rfl
    rw [skipsOthers_vector h htwo hbase]
    simp only [hptr, Bool.false_eq_true, false_implies, false_and, true_and, imp_false]

theorem skipsOthers_iff_matrixGEP :
    SkipsOthers matrixRead matrixGEP (.arg 9 0 (.ptr matrixTy 0))
        [.arg 9 1 (.int 64), .arg 9 2 (.int 64), .arg 9 3 (.int 64)] matrixTy ↔
      ((Value.arg 9 0 (.ptr matrixTy 0)).ty.isPointerTy = true → matrixTy.arraySizes ≠ []) ∧
      (IndexesNest matrixTy [.arg 9 1 (.int 64), .arg 9 2 (.int 64), .arg 9 3 (.int 64)] →
        (Value.arg 9 0 (.ptr matrixTy 0)).ty.isPointerTy = true ∧ (0 : Nat) = 0 ∧
        ∀ i ∈ [Value.arg 9 1 (.int 64), .arg 9 2 (.int 64), .arg 9 3 (.int 64)].dropLast, i.ty.lanes = none) :=
  skipsOthers_iff ⟨rfl, rfl, .inl rfl, by decide, by decide, _, rfl, rfl⟩ (by decide)

/- `p->y`, with fields `x` and `y`. -/
def structGEP : Inst :=
  ⟨10, .getElementPtr, .ptr (.int 32) 0,
    [.arg 9 0 (.ptr (.structOf [.int 32, .int 32]) 0), .const (.int 32 0), .const (.int 32 1)], [], []⟩

/- The access to a field is not skipped. -/
theorem structGEP_null_type :
    ValidGEP structGEP (.arg 9 0 (.ptr (.structOf [.int 32, .int 32]) 0)) [.const (.int 32 0), .const (.int 32 1)]
      (.structOf [.int 32, .int 32]) 0 ∧
    getDecomposedMultiDimArrayType (.ptr (.structOf [.int 32, .int 32]) 0) = none ∧
    decomposeMultiDimArrayRefs matrixRead structGEP = none ∧
    ¬ SkipsOthers matrixRead structGEP (.arg 9 0 (.ptr (.structOf [.int 32, .int 32]) 0))
      [.const (.int 32 0), .const (.int 32 1)] (.structOf [.int 32, .int 32]) := by
  refine ⟨⟨rfl, rfl, .inl rfl, by decide, by decide, _, rfl, rfl⟩, rfl, rfl, fun hs => ?_⟩
  exact hs.typed rfl

end Decompose

end Atrox
