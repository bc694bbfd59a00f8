import Atrox.Transforms.DecomposeMultiDimArrayRefs

/-!
# What a flattened GEP uses

The instructions in the place of a GEP use its base pointer and one index for each
dimension. The first index and those that are too many are gone.
-/

namespace Atrox
open IR

/- A constant, or an instruction with a number from `n` on. -/
def IR.Value.New (n : Nat) (v : Value) : Prop := (∃ c, v = .const c) ∨ ∃ j t, v = .inst j t ∧ n ≤ j

/- The value is an operand of what was inserted. -/
def IRBuilder.Uses (s : IRBuilder) (v : Value) : Prop := ∃ i ∈ s.insts, v ∈ i.operands

/- The operands that are left of a GEP. -/
def flatOperands (gep : Inst) : List Value :=
  match gep.operands with
  | [] => []
  | base :: indices => base :: indices.tail.reverse.take (getDecomposedArraySizes base.ty).length

section Uses
variable {n : Nat} {v : Value}

theorem insertInst_uses (s : IRBuilder) (op : Opcode) (ty : Ty) (operands : List Value) :
    (s.insertInst op ty operands).2.Uses v ↔ s.Uses v ∨ v ∈ operands := by
  simp only [IRBuilder.Uses, IRBuilder.insertInst, List.mem_append, List.mem_singleton, or_and_right,
    exists_or, exists_eq_left]

theorem insertInst_new {s : IRBuilder} (h : s.From n) (op : Opcode) (ty : Ty) (operands : List Value) :
    (s.insertInst op ty operands).1.New n := by
  have hn : s.nextId = n + s.insts.length := h.2
  exact .inr ⟨s.nextId, ty, rfl, by omega⟩

theorem createBinOp_uses {s : IRBuilder} (h : s.From n) {op : Opcode} {fold : Const → Const → Const}
    {a b : Value} {r : Value × IRBuilder} (hr : IRBuilder.createBinOp op fold s a b = some r) (hv : ¬v.New n) :
    r.1.New n ∧ (r.2.Uses v ↔ s.Uses v ∨ v = a ∨ v = b) := by
  obtain ⟨-, ⟨c, d, rfl, rfl, rfl⟩ | rfl⟩ := createBinOp_cases hr
  · refine ⟨.inl ⟨_, rfl⟩, Iff.symm (or_iff_left ?_)⟩
    rintro (rfl | rfl)
    · exact hv (.inl ⟨_, rfl⟩)
    · exact hv (.inl ⟨_, rfl⟩)
  · refine ⟨insertInst_new h .., ?_⟩
    rw [insertInst_uses]
    simp only [List.mem_cons, List.not_mem_nil, or_false]

theorem scaleIndices_uses (ps : List Nat) {s : IRBuilder} (h : s.From n) {vs : List Value}
    {r : List Value × IRBuilder} (hr : scaleIndices s ps vs = some r) (hv : ¬v.New n) :
    (∀ w ∈ r.1, w.New n) ∧ (r.2.Uses v ↔ s.Uses v ∨ v ∈ vs.take ps.length) := by
  induction ps generalizing s vs r with
  | nil =>
    cases hr
    simp
  | cons p ps ih =>
    cases vs with
    | nil => cases hr
    | cons w vs =>
      obtain ⟨q, hq, hr⟩ := Option.bind_eq_some_iff.mp hr
      obtain ⟨t, ht, hr⟩ := Option.map_eq_some_iff.mp hr
      obtain ⟨hq1, hq2⟩ := createBinOp_uses h hq hv
      obtain ⟨ht1, ht2⟩ := ih (createBinOp_from h hq) ht
      cases hr
      refine ⟨fun x hx => ?_, ?_⟩
      · rcases List.mem_cons.mp hx with rfl | hx
        · exact hq1
        · exact ht1 x hx
      · have hp : v ≠ getInt64 p := fun he => hv (.inl ⟨_, he⟩)
        rw [ht2, hq2, List.length_cons, List.take_succ_cons, List.mem_cons]
        simp only [hp, or_false, or_assoc]

theorem sumIndices_uses (vs : List Value) {s : IRBuilder} (h : s.From n) {sum : Value} (hsum : sum.New n)
    (hvs : ∀ w ∈ vs, w.New n) {r : Value × IRBuilder} (hr : sumIndices s sum vs = some r)
    (hv : ¬v.New n) : r.1.New n ∧ (r.2.Uses v ↔ s.Uses v) := by
  induction vs generalizing s sum with
  | nil =>
    cases hr
    exact ⟨hsum, Iff.rfl⟩
  | cons w vs ih =>
    obtain ⟨q, hq, hr⟩ := Option.bind_eq_some_iff.mp hr
    obtain ⟨hq1, hq2⟩ := createBinOp_uses h hq hv
    obtain ⟨h1, h2⟩ := ih (createBinOp_from h hq) hq1 (fun x hx => hvs x (List.mem_cons_of_mem _ hx)) hr
    refine ⟨h1, ?_⟩
    have hs : v ≠ sum := fun he => hv (he ▸ hsum)
    have hw : v ≠ w := fun he => hv (he ▸ hvs w (List.mem_cons_self ..))
    rw [h2, hq2]
    simp only [hs, hw, or_false]

theorem dimProducts_length (p : Nat) (ns : List Nat) : (dimProducts p ns).length = ns.length := by
  induction ns generalizing p with
  | nil => rfl
  | cons n ns ih => rw [dimProducts, List.length_cons, List.length_cons, ih]

/- Old values used by the replacement of a GEP. -/
theorem flattenGEP_uses {gep : Inst} {base : Value} {indices : List Value} {r : Value × IRBuilder}
    (h : flattenGEP gep base indices (getDecomposedArraySizes base.ty) n = some r) (hv : ¬v.New n) :
    r.2.Uses v ↔ v = base ∨ v ∈ indices.tail.reverse.take (getDecomposedArraySizes base.ty).length := by
  have hstart : (⟨n, []⟩ : IRBuilder).From n := ⟨rfl, rfl⟩
  obtain ⟨q, first, sum, newTypes, t, hq, hfirst, hsum, -, -, -, rfl⟩ := flattenGEP_iff.mp h
  obtain ⟨hnew, huse⟩ := scaleIndices_uses _ hstart hq hv
  obtain ⟨hsn, hsu⟩ := sumIndices_uses _ (scaleIndices_from _ hstart hq)
    (hnew first (List.mem_of_mem_head? hfirst)) (fun w hw => hnew w (List.mem_of_mem_tail hw)) hsum hv
  have hfrom := sumIndices_from _ (scaleIndices_from _ hstart hq) hsum
  have hcast : v ≠ (sum.2.insertInst .cast t [base]).1 := fun he => hv (he ▸ insertInst_new hfrom ..)
  have hs : v ≠ sum.1 := fun he => hv (he ▸ hsn)
  have hnone : ¬(⟨n, []⟩ : IRBuilder).Uses v := by
    rintro ⟨i, hi, -⟩
    cases hi
  rw [insertInst_uses, insertInst_uses, hsu, huse, dimProducts_length, List.length_reverse]
  simp only [hnone, false_or, List.mem_cons, List.not_mem_nil, or_false, hcast, hs]
  exact or_comm

/- The instructions compute. -/
def IRBuilder.NoGEP (s : IRBuilder) : Prop := ∀ i ∈ s.insts, i.op ≠ .getElementPtr

theorem createBinOp_noGEP {s : IRBuilder} (h : s.NoGEP) {op : Opcode} {fold : Const → Const → Const}
    {a b : Value} {r : Value × IRBuilder} (hop : op ≠ .getElementPtr)
    (hr : IRBuilder.createBinOp op fold s a b = some r) : r.2.NoGEP := by
  obtain ⟨-, ⟨c, d, -, -, rfl⟩ | rfl⟩ := createBinOp_cases hr
  · exact h
  · intro i hi
    rcases List.mem_append.mp hi with hi | hi
    · exact h i hi
    · rw [List.mem_singleton.mp hi]
      exact hop

theorem arrayElem_arraySizes (e : Ty) : e.arrayElem.arraySizes = [] := by
  induction e with
  | array n e ih => exact ih
  | _ => rfl

/- The last of the new types points to no array. -/
theorem newTypes_last {t u : Ty} {newTypes : List Ty} (h : getDecomposedMultiDimArrayType t = some newTypes)
    (hu : newTypes.getLast? = some u) : getDecomposedArraySizes u = [] := by
  unfold getDecomposedMultiDimArrayType at h
  split at h
  · cases h
    rw [List.getLast?_reverse, List.head?_map, Nat.add_comm, List.range_succ_eq_map] at hu
    cases hu
    exact arrayElem_arraySizes _
  · cases h
  · cases h
    cases hu

/- The new GEP starts from a pointer to no array, and it is the only one. -/
theorem flattenGEP_last {gep : Inst} {base : Value} {indices : List Value} {sizes : List Nat}
    {r : Value × IRBuilder} (h : flattenGEP gep base indices sizes n = some r) :
    ∀ i ∈ r.2.insts, i.op = .getElementPtr →
      ∃ p rest, i.operands = p :: rest ∧ getDecomposedArraySizes p.ty = [] := by
  obtain ⟨q, first, sum, newTypes, t, hq, -, hsum, htypes, ht, -, rfl⟩ := flattenGEP_iff.mp h
  have hstart : (⟨n, []⟩ : IRBuilder).NoGEP := fun i hi => by cases hi
  have hscale := scaleIndices_run (P := IRBuilder.NoGEP) (fun _ _ _ _ h hr =>
    createBinOp_noGEP h (by simp) hr) _ hstart hq
  have hno := sumIndices_run (P := IRBuilder.NoGEP) (fun _ _ _ _ h hr =>
    createBinOp_noGEP h (by simp) hr) _ hscale hsum
  have hsizes := newTypes_last htypes ht
  intro i hi hop
  simp only [IRBuilder.insertInst, List.mem_append, List.mem_singleton] at hi
  rcases hi with (hi | rfl) | rfl
  · exact absurd hop (hno i hi)
  · cases hop
  · exact ⟨_, _, rfl, hsizes⟩

end Uses

end Atrox
