import Atrox.IR.Syntax

/-!
# Types of GEPs and loads

Where the indices of a GEP lead inside a type, and the type of its result.
-/

namespace Atrox.IR

/-- `StructType::getElementType`, on the chain of the fields. -/
def Ty.field : Ty → Nat → Option Ty
  | .structCons f _, 0 => some f
  | .structCons _ r, k + 1 => r.field k
  | _, _ => none

/-- Field a constant index stands for. A splat stands for the field in every lane. -/
def Value.fieldNumber : Value → Option Nat
  | .const (.int 32 k) => some k
  | .const (.splat _ (.int 32 k)) => some k
  | _ => none

/-- `GetElementPtrInst::getIndexedType`, of the indices after the first. -/
def Ty.indexed : Ty → List Value → Option Ty
  | t, [] => some t
  | .array _ e, _ :: is => e.indexed is
  | .vector _ e, _ :: is => e.indexed is
  | t, i :: is => (i.fieldNumber.bind t.field).bind fun u => u.indexed is

/-- Elements of a vector type. -/
def Ty.lanes : Ty → Option Nat
  | .vector n _ => some n
  | _ => none

/-- `Type::isIntOrIntVectorTy`. -/
def Ty.isIntOrIntVectorTy : Ty → Bool
  | .int _ | .vector _ (.int _) => true
  | _ => false

/-- `GetElementPtrInst::getGEPReturnType`: one operand that is a vector makes it a vector. -/
def gepReturnType (t : Ty) (operands : List Value) : Ty :=
  match operands.findSome? fun v => v.ty.lanes with
  | none => t
  | some n => .vector n t

/-- What the verifier asks of a GEP from a base that points, in each lane, to `source`. -/
structure ValidGEP (gep : Inst) (base : Value) (indices : List Value) (source : Ty) (addrSpace : Nat) : Prop where
  op : gep.op = .getElementPtr
  operands : gep.operands = base :: indices
  base_ty : base.ty = .ptr source addrSpace ∨ ∃ n, base.ty = .vector n (.ptr source addrSpace)
  int : ∀ i ∈ indices, i.ty.isIntOrIntVectorTy = true
  lanes : ∀ v ∈ gep.operands, ∀ w ∈ gep.operands, v.ty.lanes = none ∨ w.ty.lanes = none ∨ v.ty.lanes = w.ty.lanes
  ty : ∃ u, source.indexed indices.tail = some u ∧ gep.ty = gepReturnType (.ptr u addrSpace) gep.operands

/-- The verifier's rules for GEPs and loads. -/
def Inst.WellTyped (i : Inst) : Prop :=
  match i.op with
  | .getElementPtr => ∃ base indices source a, ValidGEP i base indices source a
  | .load => ∃ p a, i.operands = [p] ∧ p.ty = .ptr i.ty a
  | _ => True

theorem gepReturnType_cons {t : Ty} {v : Value} {vs : List Value} (h : v.ty.lanes = none) :
    gepReturnType t (v :: vs) = gepReturnType t vs := by
  rw [gepReturnType, List.findSome?_cons, h, gepReturnType]

/- The result is a pointer exactly when no operand is a vector. -/
theorem gepReturnType_isPointerTy {t : Ty} {a : Nat} {vs : List Value} :
    (gepReturnType (.ptr t a) vs).isPointerTy = true ↔ ∀ v ∈ vs, v.ty.lanes = none := by
  induction vs with
  | nil => simp [gepReturnType, Ty.isPointerTy]
  | cons v vs ih =>
    rw [List.forall_mem_cons]
    cases hv : v.ty.lanes with
    | none => rw [gepReturnType_cons hv, ih]; simp
    | some n =>
      rw [gepReturnType, List.findSome?_cons, hv]
      simp [Ty.isPointerTy]

theorem gepReturnType_eq {t : Ty} {vs : List Value} (h : ∀ v ∈ vs, v.ty.lanes = none) : gepReturnType t vs = t := by
  induction vs with
  | nil => rfl
  | cons v vs ih =>
    obtain ⟨hv, hvs⟩ := List.forall_mem_cons.mp h
    rw [gepReturnType_cons hv, ih hvs]

theorem gepReturnType_inj {t u : Ty} {vs : List Value} (h : gepReturnType t vs = gepReturnType u vs) : t = u := by
  unfold gepReturnType at h
  split at h
  · exact h
  · exact (Ty.vector.inj h).2

end Atrox.IR
