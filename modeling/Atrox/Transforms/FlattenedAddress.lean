import Mathlib.Algebra.BigOperators.Group.List.Basic
import Mathlib.Tactic.Ring
import Atrox.IR.Evaluation
import Atrox.Transforms.FlattenedGEP

/-!
# The address a flattened GEP computes
-/

namespace Atrox
open IR

section Folding

theorem natCast_mod (n : Nat) : ((n % 2 ^ 64 : Nat) : Word) = n := by
  apply BitVec.eq_of_toNat_eq
  simp

theorem IR.Const.foldMul_eval (σ : Env) {a : Const} (ha : a.ty = .int 64) (b : Const) :
    (a.foldMul b).eval σ = a.eval σ * b.eval σ := by
  unfold foldMul
  split
  · next w x _ y =>
    obtain rfl := Ty.int.inj ha
    simp only [Const.eval, natCast_mod, Nat.cast_mul]
  · next w =>
    split
    · simp [Const.eval]
    · rfl
  · next w =>
    split
    · simp [Const.eval]
    · rfl
  · rfl

theorem IR.Const.foldAdd_eval (σ : Env) {a : Const} (ha : a.ty = .int 64) (b : Const) :
    (a.foldAdd b).eval σ = a.eval σ + b.eval σ := by
  unfold foldAdd
  split
  · next w x _ y =>
    obtain rfl := Ty.int.inj ha
    simp only [Const.eval, natCast_mod, Nat.cast_add]
  · next w =>
    split
    · simp [Const.eval]
    · rfl
  · rfl

theorem foldMul_ty (a b : Const) : (a.foldMul b).ty = a.ty := by
  unfold Const.foldMul
  split
  · rfl
  · split
    · next h => exact h.symm
    · rfl
  · split <;> rfl
  · rfl

theorem foldAdd_ty (a b : Const) : (a.foldAdd b).ty = a.ty := by
  unfold Const.foldAdd
  split
  · rfl
  · split <;> rfl
  · rfl

end Folding

section Builder
variable (DL : DataLayout) (mem : Word → Word) (x : Exec)

/- The state behind what was inserted so far. -/
def IRBuilder.exec (s : IRBuilder) : Exec := x.run DL mem s.insts

/- What `s'` inserts after `s` leaves the older values alone. -/
structure IRBuilder.Extends (s s' : IRBuilder) : Prop where
  nextId : s.nextId ≤ s'.nextId
  eval : ∀ v : Value, v.below s.nextId → v.eval (s'.exec DL mem x).env = v.eval (s.exec DL mem x).env

theorem IRBuilder.Extends.refl (s : IRBuilder) : s.Extends DL mem x s := ⟨Nat.le_refl _, fun _ _ => rfl⟩

/- The value is there and holds `w`. -/
structure IRBuilder.Holds (s : IRBuilder) (v : Value) (w : Word) : Prop where
  below : v.below s.nextId
  eval : v.eval (s.exec DL mem x).env = w

theorem insertInst_exec (s : IRBuilder) (op : Opcode) (ty : Ty) (operands : List Value) :
    (s.insertInst op ty operands).2.exec DL mem x =
      (s.exec DL mem x).step DL mem ⟨s.nextId, op, ty, operands, [], []⟩ :=
  Exec.run_append DL mem x s.insts [⟨s.nextId, op, ty, operands, [], []⟩]

theorem insertInst_holds (s : IRBuilder) (op : Opcode) (ty : Ty) (operands : List Value) :
    s.Extends DL mem x (s.insertInst op ty operands).2 ∧
      (s.insertInst op ty operands).2.Holds DL mem x (s.insertInst op ty operands).1
        (Inst.result DL mem (s.exec DL mem x).env ⟨s.nextId, op, ty, operands, [], []⟩) := by
  refine ⟨⟨Nat.le_succ _, fun v hv => ?_⟩, ⟨Nat.lt_succ_self _, ?_⟩⟩
  · rw [insertInst_exec]
    exact Exec.step_below DL mem _ _ hv
  · rw [insertInst_exec]
    exact Exec.step_self DL mem _ _

variable {DL mem x}

theorem IRBuilder.Extends.trans {s t u : IRBuilder} (h : s.Extends DL mem x t) (h' : t.Extends DL mem x u) :
    s.Extends DL mem x u :=
  ⟨Nat.le_trans h.nextId h'.nextId, fun v hv => (h'.eval v (hv.mono h.nextId)).trans (h.eval v hv)⟩

theorem IRBuilder.Holds.mono {s t : IRBuilder} {v : Value} {w : Word} (h : s.Holds DL mem x v w)
    (ht : s.Extends DL mem x t) : t.Holds DL mem x v w :=
  ⟨h.below.mono ht.nextId, (ht.eval v h.below).trans h.eval⟩

/- `CreateMul` and `CreateAdd` on 64-bit integers. -/
theorem createBinOp_holds {op : Opcode} {fold : Const → Const → Const} {f : Word → Word → Word}
    (hop : ∀ σ n a b, Inst.result DL mem σ ⟨n, op, .int 64, [a, b], [], []⟩ = f (a.eval σ) (b.eval σ))
    (hfold : ∀ σ a b, a.ty = .int 64 → (fold a b).eval σ = f (a.eval σ) (b.eval σ))
    (hty : ∀ a b, (fold a b).ty = a.ty) {s : IRBuilder} {a b : Value} {u w : Word} (hat : a.ty = .int 64)
    (hbt : b.ty = .int 64) (ha : s.Holds DL mem x a u) (hb : s.Holds DL mem x b w) :
    ∃ r, IRBuilder.createBinOp op fold s a b = some r ∧ s.Extends DL mem x r.2 ∧ r.1.ty = .int 64 ∧
      r.2.Holds DL mem x r.1 (f u w) := by
  unfold IRBuilder.createBinOp
  rw [if_neg (by rw [hat, hbt]; exact not_not.mpr rfl)]
  obtain ⟨-, rfl⟩ := ha
  obtain ⟨-, rfl⟩ := hb
  split
  · next c d =>
    exact ⟨_, rfl, .refl DL mem x s, (hty c d).trans hat, trivial, hfold _ c d hat⟩
  · obtain ⟨hext, hholds⟩ := insertInst_holds DL mem x s op a.ty [a, b]
    rw [hat, hop] at hholds
    rw [hat] at hext ⊢
    exact ⟨_, rfl, hext, rfl, hholds⟩

section Ops
variable {s : IRBuilder} {a b : Value} {u w : Word} (hat : a.ty = .int 64) (hbt : b.ty = .int 64)
  (ha : s.Holds DL mem x a u) (hb : s.Holds DL mem x b w)
include hat hbt ha hb

theorem createMul_holds : ∃ r, s.createMul a b = some r ∧ s.Extends DL mem x r.2 ∧ r.1.ty = .int 64 ∧
    r.2.Holds DL mem x r.1 (u * w) :=
  createBinOp_holds (fun _ _ _ _ => rfl) (fun σ a b ha => a.foldMul_eval σ ha b) foldMul_ty hat hbt ha hb

theorem createAdd_holds : ∃ r, s.createAdd a b = some r ∧ s.Extends DL mem x r.2 ∧ r.1.ty = .int 64 ∧
    r.2.Holds DL mem x r.1 (u + w) :=
  createBinOp_holds (fun _ _ _ _ => rfl) (fun σ a b ha => a.foldAdd_eval σ ha b) foldAdd_ty hat hbt ha hb

end Ops

/- The products are integers of 64 bits. -/
theorem getInt64_holds (s : IRBuilder) (n : Nat) : s.Holds DL mem x (getInt64 n) n := ⟨trivial, rfl⟩

theorem scaleIndices_holds (ps : List Nat) {s : IRBuilder} {vs : List Value} {ws : List Word}
    (hlen : ps.length = vs.length) (hty : ∀ v ∈ vs, v.ty = .int 64)
    (hvs : List.Forall₂ (s.Holds DL mem x) vs ws) : ∃ r, scaleIndices s ps vs = some r ∧ s.Extends DL mem x r.2 ∧
      (∀ v ∈ r.1, v.ty = .int 64) ∧
      List.Forall₂ (r.2.Holds DL mem x) r.1 (List.zipWith (fun (p : Nat) (w : Word) => w * p) ps ws) := by
  induction ps generalizing s vs ws with
  | nil =>
    exact ⟨_, rfl, .refl DL mem x s, by simp, .nil⟩
  | cons p ps ih =>
    cases hvs with
    | nil => exact nomatch hlen
    | @cons v w vs ws hv hvs =>
      obtain ⟨q, hq, hqe, hqt, hqh⟩ := createMul_holds (hty v (List.mem_cons_self ..)) rfl hv (getInt64_holds s p)
      obtain ⟨t, ht, hte, htt, hth⟩ := ih (Nat.succ.inj hlen) (fun v hv => hty v (List.mem_cons_of_mem _ hv))
        (hvs.imp fun _ _ h => h.mono hqe)
      refine ⟨(q.1 :: t.1, t.2), ?_, hqe.trans hte, List.forall_mem_cons.mpr ⟨hqt, htt⟩, .cons (hqh.mono hte) hth⟩
      rw [scaleIndices, hq, Option.bind_some, ht]
      rfl

theorem sumIndices_holds {vs : List Value} {ws : List Word} {s : IRBuilder}
    (hvs : List.Forall₂ (s.Holds DL mem x) vs ws) (hty : ∀ v ∈ vs, v.ty = .int 64) {sum : Value} {u : Word}
    (hst : sum.ty = .int 64) (hs : s.Holds DL mem x sum u) : ∃ r, sumIndices s sum vs = some r ∧
      s.Extends DL mem x r.2 ∧ r.2.Holds DL mem x r.1 (u + ws.sum) := by
  induction vs generalizing s sum u ws with
  | nil =>
    cases hvs
    exact ⟨_, rfl, .refl DL mem x s, by simpa using hs⟩
  | cons v vs ih =>
    obtain ⟨w, ws, hv, hrest, rfl⟩ := List.forall₂_cons_left_iff.mp hvs
    obtain ⟨q, hq, hqe, hqt, hqh⟩ := createAdd_holds hst (hty v (List.mem_cons_self ..)) hs hv
    obtain ⟨r, hr, hre, hrh⟩ := ih (hrest.imp fun _ _ h => h.mono hqe) (fun v hv => hty v (List.mem_cons_of_mem _ hv))
      hqt hqh
    refine ⟨r, ?_, hqe.trans hre, ?_⟩
    · rw [sumIndices, hq, Option.bind_some, hr]
    · rwa [List.sum_cons, ← add_assoc]

end Builder

section Nest

/- The index of an element, with the weight that the sizes to its right give each index. -/
def linearIndex : List Nat → List Word → Word
  | _, [] => 0
  | ns, i :: is => i * (ns.prod : Nat) + linearIndex ns.tail is

theorem natCast_list_prod (ns : List Nat) (n : Nat) : (((n :: ns).prod : Nat) : Word) = n * (ns.prod : Nat) := by
  rw [List.prod_cons, Nat.cast_mul]

theorem dimProducts_concat (p : Nat) (ns : List Nat) (n : Nat) :
    ∃ q : Nat, dimProducts p (ns ++ [n]) = dimProducts p ns ++ [q] ∧ (q : Word) = p * (ns.prod : Nat) := by
  induction ns generalizing p with
  | nil => exact ⟨p, rfl, by simp⟩
  | cons m ns ih =>
    obtain ⟨q, hq, hqp⟩ := ih (p * m % 2 ^ 64)
    refine ⟨q, by rw [List.cons_append, dimProducts, hq]; rfl, ?_⟩
    rw [hqp, natCast_mod, natCast_list_prod, Nat.cast_mul, mul_assoc]

/- Reversed sizes and reversed indices give the index of the element. -/
theorem scaled_sum {ns : List Nat} {is : List Word} (hlen : ns.length = is.length) :
    (List.zipWith (fun (p : Nat) (w : Word) => w * p) (dimProducts 1 ns.reverse) is.reverse).sum =
      linearIndex ns.tail is := by
  induction ns generalizing is with
  | nil =>
    obtain rfl := List.length_eq_zero_iff.mp hlen.symm
    rfl
  | cons n ns ih =>
    cases is with
    | nil => exact nomatch hlen
    | cons i is =>
      have hlen' : ns.length = is.length := Nat.succ.inj hlen
      obtain ⟨q, hq, hqp⟩ := dimProducts_concat 1 ns.reverse n
      have hd : (dimProducts 1 ns.reverse).length = is.reverse.length := by
        rw [dimProducts_length, List.length_reverse, List.length_reverse, hlen']
      rw [List.reverse_cons, List.reverse_cons, hq, List.zipWith_append hd, List.sum_append, ih hlen', List.tail_cons,
        linearIndex, List.zipWith_cons_cons, List.zipWith_nil_left, List.sum_singleton, hqp, List.prod_reverse,
        Nat.cast_one, one_mul, add_comm]

variable (DL : DataLayout)

theorem typeAllocSize_nest (t : Ty) : DL.typeAllocSize t = t.arraySizes.prod * DL.typeAllocSize t.arrayElem := by
  induction t with
  | array n e ih => rw [DL.array, ih, Ty.arraySizes, Ty.arrayElem, List.prod_cons, mul_assoc]
  | _ => exact (one_mul _).symm

theorem offset_nest {t : Ty} {is : List Word} (hlen : is.length ≤ t.arraySizes.length) :
    DL.offset t is = linearIndex t.arraySizes.tail is * DL.typeAllocSize t.arrayElem := by
  induction t generalizing is with
  | array n e ih =>
    cases is with
    | nil => simp [DataLayout.offset, linearIndex]
    | cons i is =>
      have hlen' : is.length ≤ e.arraySizes.length := Nat.le_of_succ_le_succ hlen
      rw [DataLayout.offset, ih hlen', typeAllocSize_nest DL e, Ty.arraySizes, List.tail_cons, linearIndex, Ty.arrayElem,
        Nat.cast_mul]
      ring
  | _ =>
    obtain rfl := List.length_eq_zero_iff.mp (Nat.le_zero.mp hlen)
    simp [DataLayout.offset, linearIndex]

/- The address a GEP over a nest of arrays computes. -/
theorem gepAddress_nest {t : Ty} (p i : Word) {is : List Word} (hlen : is.length ≤ t.arraySizes.length) :
    DL.gepAddress t p (i :: is) = p + linearIndex t.arraySizes (i :: is) * DL.typeAllocSize t.arrayElem := by
  rw [DataLayout.gepAddress, offset_nest DL hlen, typeAllocSize_nest DL t, linearIndex, Nat.cast_mul]
  ring

end Nest

section Flatten

/- A GEP over a nest of at least two arrays, with a first index and one for each array. -/
structure NestGEP (M : Module) (gep : Inst) (base : Value) (pointee : Ty) (addrSpace : Nat) (first : Value)
    (rest : List Value) : Prop where
  op : gep.op = .getElementPtr
  operands : gep.operands = base :: first :: rest
  base_ty : base.ty = .ptr pointee addrSpace
  ty : gep.ty = .ptr pointee.arrayElem addrSpace
  levels : 2 ≤ pointee.arraySizes.length
  indices : rest.length = pointee.arraySizes.length
  int : ∀ v ∈ first :: rest, v.ty = .int 64
  below : ∀ v ∈ gep.operands, v.below M.nextId

/- The new types of a pointer to an array: one more than there are sizes, and the last
points to the elements. -/
theorem newTypes_nest (n : Nat) (e : Ty) (a : Nat) :
    ∃ newTypes, getDecomposedMultiDimArrayType (.ptr (.array n e) a) = some newTypes ∧
      newTypes.length = (Ty.array n e).arraySizes.length + 1 ∧
      newTypes.getLast? = some (.getUnqual (Ty.array n e).arrayElem) := by
  refine ⟨_, rfl, ?_, ?_⟩
  · rw [List.length_reverse, List.length_map, List.length_range, Nat.add_comm]
  · rw [List.getLast?_reverse, List.head?_map, Nat.add_comm, List.range_succ_eq_map]
    rfl

variable {M : Module} {gep : Inst} {base first : Value} {pointee : Ty} {a : Nat} {rest : List Value}

theorem NestGEP.newTypes (h : NestGEP M gep base pointee a first rest) :
    ∃ newTypes, getDecomposedMultiDimArrayType base.ty = some newTypes ∧
      newTypes.length = pointee.arraySizes.length + 1 ∧ newTypes.getLast? = some (.getUnqual pointee.arrayElem) := by
  have hlevels := h.levels
  rw [h.base_ty]
  cases pointee with
  | array n e => exact newTypes_nest n e a
  | _ => exact absurd hlevels (Nat.not_succ_le_zero 1)

/- The scaled indices, of which there are at least two. -/
theorem NestGEP.scaled_holds (DL : DataLayout) (mem : Word → Word) (σ : Env)
    (h : NestGEP M gep base pointee a first rest) :
    ∃ q v vs, scaleIndices ⟨M.nextId, []⟩ (dimProducts 1 pointee.arraySizes.reverse) rest.reverse = some q ∧
      q.1 = v :: vs ∧ (⟨M.nextId, []⟩ : IRBuilder).Extends DL mem ⟨σ, []⟩ q.2 ∧ (∀ v ∈ q.1, v.ty = .int 64) ∧
      List.Forall₂ (q.2.Holds DL mem ⟨σ, []⟩) q.1 (List.zipWith (fun (p : Nat) (w : Word) => w * p)
        (dimProducts 1 pointee.arraySizes.reverse) (rest.map (Value.eval σ)).reverse) := by
  have hlen : (dimProducts 1 pointee.arraySizes.reverse).length = rest.reverse.length := by
    rw [dimProducts_length, List.length_reverse, List.length_reverse, h.indices]
  have hint : ∀ v ∈ rest.reverse, v.ty = .int 64 := fun v hv =>
    h.int v (List.mem_cons_of_mem _ (List.mem_reverse.mp hv))
  have hvs : List.Forall₂ ((⟨M.nextId, []⟩ : IRBuilder).Holds DL mem ⟨σ, []⟩) rest.reverse
      (rest.map (Value.eval σ)).reverse := by
    rw [← List.map_reverse, List.forall₂_map_right_iff, List.forall₂_same]
    intro v hv
    refine ⟨h.below v ?_, rfl⟩
    rw [h.operands]
    exact List.mem_cons_of_mem _ (List.mem_cons_of_mem _ (List.mem_reverse.mp hv))
  obtain ⟨q, hq, hqe, hqt, hqh⟩ := scaleIndices_holds _ hlen hint hvs
  have hpos : q.1.length = pointee.arraySizes.length := by
    rw [hqh.length_eq, List.length_zipWith, dimProducts_length, List.length_reverse, List.length_reverse,
      List.length_map, h.indices, Nat.min_self]
  have hlevels := h.levels
  cases hv : q.1 with
  | nil =>
    rw [hv, List.length_nil] at hpos
    omega
  | cons v vs => exact ⟨q, v, vs, hq, hv, hqe, hqt, hqh⟩

/- The products and sums give the index of the element, without the first index. -/
theorem NestGEP.linear_holds (DL : DataLayout) (mem : Word → Word) (σ : Env)
    (h : NestGEP M gep base pointee a first rest) :
    ∃ q v vs s, scaleIndices ⟨M.nextId, []⟩ (dimProducts 1 pointee.arraySizes.reverse) rest.reverse = some q ∧
      q.1 = v :: vs ∧ sumIndices q.2 v vs = some s ∧ (⟨M.nextId, []⟩ : IRBuilder).Extends DL mem ⟨σ, []⟩ s.2 ∧
      s.2.Holds DL mem ⟨σ, []⟩ s.1 (linearIndex pointee.arraySizes.tail (rest.map (Value.eval σ))) := by
  obtain ⟨q, v, vs, hq, hv, hqe, hqt, hqh⟩ := h.scaled_holds DL mem σ
  have hsum : _ = linearIndex pointee.arraySizes.tail (rest.map (Value.eval σ)) :=
    scaled_sum (by rw [List.length_map, h.indices])
  rw [hv] at hqt hqh
  obtain ⟨w, ws, hvw, hrest, hws⟩ := List.forall₂_cons_left_iff.mp hqh
  obtain ⟨s, hs, hse, hsh⟩ := sumIndices_holds hrest (fun v hv => hqt v (List.mem_cons_of_mem _ hv))
    (hqt v (List.mem_cons_self ..)) hvw
  rw [hws, List.sum_cons] at hsum
  exact ⟨q, v, vs, s, hq, hv, hs, hqe.trans hse, hsum ▸ hsh⟩

/- What stands in the place of the GEP leaves the first index out. -/
theorem flattenGEP_holds (DL : DataLayout) (mem : Word → Word) (σ : Env)
    (h : NestGEP M gep base pointee a first rest) :
    ∃ r, flattenGEP gep base (first :: rest) pointee.arraySizes M.nextId =
        (if gep.ty ≠ .getUnqual pointee.arrayElem then none else some r) ∧
      r.2.Holds DL mem ⟨σ, []⟩ r.1 (base.eval σ + linearIndex pointee.arraySizes.tail (rest.map (Value.eval σ)) *
        DL.typeAllocSize pointee.arrayElem) := by
  obtain ⟨newTypes, htypes, -, hlast⟩ := h.newTypes
  obtain ⟨q, v, vs, s, hq, hv, hs, hse, hsh⟩ := h.linear_holds DL mem σ
  have hb : base.below M.nextId := h.below base (h.operands ▸ List.mem_cons_self ..)
  have hbase : s.2.Holds DL mem ⟨σ, []⟩ base (base.eval σ) := IRBuilder.Holds.mono ⟨hb, rfl⟩ hse
  obtain ⟨hce, hch⟩ := insertInst_holds DL mem ⟨σ, []⟩ s.2 .cast (.getUnqual pointee.arrayElem) [base]
  obtain ⟨-, hgh⟩ := insertInst_holds DL mem ⟨σ, []⟩
    (s.2.insertInst .cast (.getUnqual pointee.arrayElem) [base]).2 .getElementPtr (.getUnqual pointee.arrayElem)
    [(s.2.insertInst .cast (.getUnqual pointee.arrayElem) [base]).1, s.1]
  refine ⟨_, ?_, hgh.below, ?_⟩
  · rw [flattenGEP, List.tail_cons, hq, Option.bind_some, hv, List.head?_cons, Option.bind_some, List.tail_cons, hs,
      Option.bind_some, htypes, Option.bind_some, hlast, Option.bind_some]
  · rw [hgh.eval, Inst.result]
    simp only [List.map_cons, List.map_nil, DataLayout.gepAddress, DataLayout.offset, add_zero]
    rw [hch.eval, (hsh.mono hce).eval, Inst.result]
    dsimp only
    rw [hbase.eval]
    rfl

theorem NestGEP.result (DL : DataLayout) (mem : Word → Word) (σ : Env) (h : NestGEP M gep base pointee a first rest) :
    gep.result DL mem σ = base.eval σ + linearIndex pointee.arraySizes (first.eval σ :: rest.map (Value.eval σ)) *
      DL.typeAllocSize pointee.arrayElem := by
  have hlen : (rest.map (Value.eval σ)).length ≤ pointee.arraySizes.length := by rw [List.length_map, h.indices]
  rw [Inst.result, h.op, h.operands]
  dsimp only
  rw [h.base_ty, List.map_cons, Ty.pointee, gepAddress_nest DL _ _ hlen]

/- A pointer is put in the place of the GEP, and behind the code inserted for it, it is
the address that the GEP computes. -/
def FlattensToAddress (DL : DataLayout) (mem : Word → Word) (σ : Env) (M : Module) (gep : Inst) (base : Value)
    (indices : List Value) : Prop :=
  ∃ v s, flattenGEP gep base indices (getDecomposedArraySizes base.ty) M.nextId = some (v, s) ∧
    flattenMultiDimArrayIndices M gep = some ({ (M.replaceAllUsesWith gep.val v).replaceInst gep.id s.insts with
      nextId := M.nextId + s.insts.length }, some v) ∧
    v.eval (s.exec DL mem ⟨σ, []⟩).env = gep.result DL mem σ

theorem NestGEP.sizes (h : NestGEP M gep base pointee a first rest) :
    getDecomposedArraySizes base.ty = pointee.arraySizes := by
  rw [h.base_ty]
  rfl

theorem NestGEP.run (h : NestGEP M gep base pointee a first rest) : flattenMultiDimArrayIndices M gep =
    (flattenGEP gep base (first :: rest) pointee.arraySizes M.nextId).map fun r =>
      ({ (M.replaceAllUsesWith gep.val r.1).replaceInst gep.id r.2.insts with nextId := r.2.nextId }, some r.1) := by
  unfold flattenMultiDimArrayIndices
  rw [h.operands]
  dsimp only
  rw [h.sizes, if_neg (Nat.not_le_of_lt h.levels)]

/- The assertion on the types holds in the default address space only. -/
theorem NestGEP.unqual_iff (h : NestGEP M gep base pointee a first rest) :
    gep.ty = .getUnqual pointee.arrayElem ↔ a = 0 := by
  rw [h.ty, Ty.getUnqual]
  exact ⟨fun he => (Ty.ptr.inj he).2, fun ha => by rw [ha]⟩

/- What is emitted in the default address space, and the pointer it gives. -/
theorem NestGEP.flattenGEP_value (DL : DataLayout) (mem : Word → Word) (σ : Env)
    (h : NestGEP M gep base pointee a first rest) (r : Value × IRBuilder) :
    flattenGEP gep base (first :: rest) pointee.arraySizes M.nextId = some r → a = 0 ∧
      r.1.eval (r.2.exec DL mem ⟨σ, []⟩).env = base.eval σ +
        linearIndex pointee.arraySizes.tail (rest.map (Value.eval σ)) * DL.typeAllocSize pointee.arrayElem := by
  intro hr
  obtain ⟨r', hr', hholds⟩ := flattenGEP_holds DL mem σ h
  rw [hr'] at hr
  split at hr
  · exact nomatch hr
  · next hty =>
    obtain rfl := Option.some.inj hr
    exact ⟨h.unqual_iff.mp (not_not.mp hty), hholds.eval⟩

theorem NestGEP.flattenGEP_exists (DL : DataLayout) (mem : Word → Word)
    (h : NestGEP M gep base pointee a first rest) (ha : a = 0) :
    ∃ r, flattenGEP gep base (first :: rest) pointee.arraySizes M.nextId = some r := by
  obtain ⟨r, hr, -⟩ := flattenGEP_holds DL mem (fun _ => 0) h
  rw [if_neg (not_not.mpr (h.unqual_iff.mpr ha))] at hr
  exact ⟨r, hr⟩

/- A pointer is put in the place of the GEP in the default address space only. It is the address
the GEP computes exactly when the first index steps over nothing. -/
theorem flattenMultiDimArrayIndices_address_iff (DL : DataLayout) (mem : Word → Word)
    (h : NestGEP M gep base pointee a first rest) :
    ((∃ M' v, flattenMultiDimArrayIndices M gep = some (M', some v)) ↔ a = 0) ∧
    ∀ σ, gep.result DL mem σ = base.eval σ +
        linearIndex pointee.arraySizes (first.eval σ :: rest.map (Value.eval σ)) * DL.typeAllocSize pointee.arrayElem ∧
      (FlattensToAddress DL mem σ M gep base (first :: rest) ↔
        a = 0 ∧ first.eval σ * (pointee.arraySizes.prod : Nat) * DL.typeAllocSize pointee.arrayElem = 0) := by
  have hsame : ∀ σ, base.eval σ + linearIndex pointee.arraySizes.tail (rest.map (Value.eval σ)) *
        DL.typeAllocSize pointee.arrayElem = gep.result DL mem σ ↔
      first.eval σ * (pointee.arraySizes.prod : Nat) * DL.typeAllocSize pointee.arrayElem = 0 := by
    intro σ
    rw [h.result DL mem σ, linearIndex, add_mul, add_right_inj, right_eq_add]
  have hput : ∀ {r}, flattenGEP gep base (first :: rest) pointee.arraySizes M.nextId = some r →
      flattenMultiDimArrayIndices M gep = some ({ (M.replaceAllUsesWith gep.val r.1).replaceInst gep.id r.2.insts with
        nextId := M.nextId + r.2.insts.length }, some r.1) := by
    intro r hr
    have hnext : r.2.nextId = M.nextId + r.2.insts.length := (flattenGEP_spec hr).1.2
    rw [h.run, hr, Option.map_some, hnext]
  constructor
  · constructor
    · intro ⟨M', v, hrun⟩
      rw [h.run] at hrun
      obtain ⟨r, hr, -⟩ := Option.map_eq_some_iff.mp hrun
      exact (h.flattenGEP_value DL mem (fun _ => 0) r hr).1
    · intro ha
      obtain ⟨r, hr⟩ := h.flattenGEP_exists DL mem ha
      exact ⟨_, r.1, hput hr⟩
  · intro σ
    rw [FlattensToAddress, h.sizes]
    constructor
    · exact h.result DL mem σ
    · constructor
      · intro ⟨v, s, hr, _, heval⟩
        obtain ⟨ha, hv⟩ := h.flattenGEP_value DL mem σ (v, s) hr
        exact ⟨ha, (hsame σ).mp (hv.symm.trans heval)⟩
      · intro ⟨ha, hzero⟩
        obtain ⟨r, hr⟩ := h.flattenGEP_exists DL mem ha
        obtain ⟨-, hv⟩ := h.flattenGEP_value DL mem σ r hr
        exact ⟨r.1, r.2, hr, hput hr, hv.trans ((hsame σ).mpr hzero)⟩

/- Sizes without padding. -/
def packedSize : Ty → Nat
  | .int w | .fp w => (w + 7) / 8
  | .ptr _ _ => 8
  | .array n e | .vector n e => n * packedSize e
  | .structCons f r => packedSize f + packedSize r
  | .void | .structNil | .other _ => 0

def packedLayout : DataLayout := ⟨packedSize, fun _ _ => rfl, fun _ _ => 0⟩

def matrixTy : Ty := .array 2 (.array 3 (.int 32))

/- `a[i][j][k]` for `int (*a)[2][3]`. -/
def matrixGEP : Inst :=
  ⟨10, .getElementPtr, .ptr (.int 32) 0, [.arg 9 0 (.ptr matrixTy 0),
    .arg 9 1 (.int 64), .arg 9 2 (.int 64), .arg 9 3 (.int 64)], [], []⟩

def matrixRead : Module where
  funcs := [{ id := 9, isVarArg := false, params :=
    [⟨"a", .ptr matrixTy 0⟩, ⟨"i", .int 64⟩, ⟨"j", .int 64⟩, ⟨"k", .int 64⟩], blocks :=
    [⟨0, [matrixGEP, ⟨11, .load, .int 32, [matrixGEP.val], [], []⟩,
      ⟨12, .ret, .void, [.inst 11 (.int 32)], [], []⟩], false⟩] }]
  nextId := 20
  valueName := fun _ => ""
  initUsesBlockAddress := fun _ => false

theorem matrixGEP_nest : NestGEP matrixRead matrixGEP (.arg 9 0 (.ptr matrixTy 0)) matrixTy 0 (.arg 9 1 (.int 64))
    [.arg 9 2 (.int 64), .arg 9 3 (.int 64)] :=
  ⟨rfl, rfl, rfl, rfl, by decide, by decide, by decide, by decide⟩

theorem flattenMultiDimArrayIndices_address_iff_matrixGEP :
    ((∃ M' v, flattenMultiDimArrayIndices matrixRead matrixGEP = some (M', some v)) ↔ (0 : Nat) = 0) ∧
    ∀ σ, matrixGEP.result packedLayout id σ = (Value.arg 9 0 (.ptr matrixTy 0)).eval σ +
        linearIndex matrixTy.arraySizes ((Value.arg 9 1 (.int 64)).eval σ ::
          [Value.arg 9 2 (.int 64), .arg 9 3 (.int 64)].map (Value.eval σ)) *
          packedLayout.typeAllocSize matrixTy.arrayElem ∧
      (FlattensToAddress packedLayout id σ matrixRead matrixGEP (.arg 9 0 (.ptr matrixTy 0))
          [.arg 9 1 (.int 64), .arg 9 2 (.int 64), .arg 9 3 (.int 64)] ↔
        (0 : Nat) = 0 ∧ (Value.arg 9 1 (.int 64)).eval σ * (matrixTy.arraySizes.prod : Nat) *
          packedLayout.typeAllocSize matrixTy.arrayElem = 0) :=
  flattenMultiDimArrayIndices_address_iff packedLayout id matrixGEP_nest

/- `a[1][0][0]`, with `a` at the address 0. -/
def secondMatrix : Env := fun v => if v = .arg 9 1 (.int 64) then 1 else 0

/- The access to the second matrix becomes one to the first. -/
theorem matrixRead_first_matrix : ∃ M' v is,
    flattenMultiDimArrayIndices matrixRead matrixGEP = some (M', some v) ∧
    M'.insts = is ++ [⟨11, .load, .int 32, [v], [], []⟩, ⟨12, .ret, .void, [.inst 11 (.int 32)], [], []⟩] ∧
    matrixGEP.result packedLayout id secondMatrix = 24 ∧
    v.eval (Exec.run packedLayout id ⟨secondMatrix, []⟩ is).env = 0 :=
  ⟨_, .inst 24 (.ptr (.int 32) 0),
    [⟨20, .mul, .int 64, [.arg 9 3 (.int 64), .const (.int 64 1)], [], []⟩,
     ⟨21, .mul, .int 64, [.arg 9 2 (.int 64), .const (.int 64 3)], [], []⟩,
     ⟨22, .add, .int 64, [.inst 20 (.int 64), .inst 21 (.int 64)], [], []⟩,
     ⟨23, .cast, .ptr (.int 32) 0, [.arg 9 0 (.ptr matrixTy 0)], [], []⟩,
     ⟨24, .getElementPtr, .ptr (.int 32) 0, [.inst 23 (.ptr (.int 32) 0), .inst 22 (.int 64)], [], []⟩],
    rfl, rfl, by decide, by decide⟩

end Flatten

end Atrox
