import Mathlib.Algebra.Group.Nat.Defs
import Mathlib.Logic.Function.Iterate
import Atrox.IR.Edit

/-!
# Accesses to multi-dimensional arrays (DecomposeMultiDimArrayRefs.cpp)

`none` stands for a failed assertion of LLVM.
-/

namespace Atrox
open IR

/- Sizes and element type of a nest of array types. -/
def IR.Ty.arraySizes : Ty → List Nat
  | .array n e => n :: arraySizes e
  | _ => []

def IR.Ty.arrayElem : Ty → Ty
  | .array _ e => arrayElem e
  | t => t

def getDecomposedArraySizes : Ty → List Nat
  | .ptr e _ => e.arraySizes
  | _ => []

/- The types `GetDecomposedMultiDimArrayType` stores in `NewTypes`. Without an
array there is no basic type and the sources build a pointer to nothing. -/
def getDecomposedMultiDimArrayType : Ty → Option (List Ty)
  | .ptr (.array n e) _ =>
    let dim := 1 + (Ty.array n e).arraySizes.length
    some (((List.range dim).map fun i => Ty.getUnqual^[i + 1] e.arrayElem).reverse)
  | .ptr _ _ => none
  | _ => some []

/- Constant folding of `mul` and `add`. -/
def IR.Const.foldMul : Const → Const → Const
  | .int w x, .int _ y => .int w (x * y % 2 ^ w)
  | a, .int w 0 => if a.ty = .int w then .int w 0 else .mul a (.int w 0)
  | a, .int w 1 => if a.ty = .int w then a else .mul a (.int w 1)
  | a, b => .mul a b

def IR.Const.foldAdd : Const → Const → Const
  | .int w x, .int _ y => .int w ((x + y) % 2 ^ w)
  | a, .int w 0 => if a.ty = .int w then a else .add a (.int w 0)
  | a, b => .add a b

/- `IRBuilder`: the next free number and what was inserted so far. -/
structure IRBuilder where
  nextId : Nat
  insts : List Inst

namespace IRBuilder

def insertInst (s : IRBuilder) (op : Opcode) (ty : Ty) (operands : List Value) : Value × IRBuilder :=
  let i : Inst := ⟨s.nextId, op, ty, operands, [], []⟩
  (i.val, ⟨s.nextId + 1, s.insts ++ [i]⟩)

/- `CreateMul` and `CreateAdd`; the operands must have one type. -/
def createBinOp (op : Opcode) (fold : Const → Const → Const) (s : IRBuilder) (a b : Value) :
    Option (Value × IRBuilder) :=
  if a.ty ≠ b.ty then none else
  match a, b with
  | .const x, .const y => some (.const (fold x y), s)
  | _, _ => some (s.insertInst op a.ty [a, b])

def createMul : IRBuilder → Value → Value → Option (Value × IRBuilder) := createBinOp .mul Const.foldMul

def createAdd : IRBuilder → Value → Value → Option (Value × IRBuilder) := createBinOp .add Const.foldAdd

end IRBuilder

/- `products`: the first is 1, each further one scales the one before by its size. -/
def dimProducts (p : Nat) : List Nat → List Nat
  | [] => []
  | n :: ns => p :: dimProducts (p * n % 2 ^ 64) ns

def getInt64 (n : Nat) : Value := .const (.int 64 n)

/- `scaledIndices`. A product without an index is an access out of bounds. -/
def scaleIndices (s : IRBuilder) : List Nat → List Value → Option (List Value × IRBuilder)
  | [], _ => some ([], s)
  | _ :: _, [] => none
  | p :: ps, v :: vs => (s.createMul v (getInt64 p)).bind fun r =>
    (scaleIndices r.2 ps vs).map fun q => (r.1 :: q.1, q.2)

/- `summedIndices.back()`. -/
def sumIndices (s : IRBuilder) (sum : Value) : List Value → Option (Value × IRBuilder)
  | [] => some (sum, s)
  | v :: vs => (s.createAdd sum v).bind fun r => sumIndices r.2 r.1 vs

/- What stands in the place of the GEP; the new GEP is the last instruction. -/
def flattenGEP (gep : Inst) (base : Value) (indices : List Value) (sizes : List Nat) (n : Nat) :
    Option (Value × IRBuilder) :=
  (scaleIndices ⟨n, []⟩ (dimProducts 1 sizes.reverse) indices.tail.reverse).bind fun r =>
  (r.1.head?).bind fun first => (sumIndices r.2 first r.1.tail).bind fun sum =>
  (getDecomposedMultiDimArrayType base.ty).bind fun newTypes =>
  (newTypes.getLast?).bind fun t =>
    let c := sum.2.insertInst .cast t [base]
    let g := c.2.insertInst .getElementPtr t [c.1, sum.1]
    if gep.ty ≠ t then none else some g

/- An instruction gives way to others. -/
def IR.Module.replaceInst (M : Module) (i : InstId) (is : List Inst) : Module :=
  M.mapBlocks fun b => { b with insts := b.insts.flatMap fun x => if x.id = i then is else [x] }

/- `Value::replaceAllUsesWith`. -/
def IR.Module.replaceAllUsesWith (M : Module) (src dst : Value) : Module :=
  M.mapBlocks (Block.mapInsts (Inst.replaceUsesOfWith src dst))

/- `FlattenMultiDimArrayIndices`: the module, and the value that replaces the GEP
when it changed. -/
def flattenMultiDimArrayIndices (M : Module) (gep : Inst) : Option (Module × Option Value) :=
  match gep.operands with
  | [] => some (M, none)
  | base :: indices =>
    let sizes := getDecomposedArraySizes base.ty
    if sizes.length ≤ 1 then some (M, none) else
    (flattenGEP gep base indices sizes M.nextId).map fun r =>
      let M' := (M.replaceAllUsesWith gep.val r.1).replaceInst gep.id r.2.insts
      ({ M' with nextId := r.2.nextId }, some r.1)

section Builder

/- The instructions inserted since `n` have the numbers from `n` on. -/
def IRBuilder.From (n : Nat) (s : IRBuilder) : Prop :=
  s.insts.map Inst.id = List.range' n s.insts.length ∧ s.nextId = n + s.insts.length

theorem insertInst_from {n : Nat} {s : IRBuilder} (h : s.From n) (op : Opcode) (ty : Ty)
    (operands : List Value) : (s.insertInst op ty operands).2.From n := by
  obtain ⟨h1, h2⟩ := h
  constructor
  · simp only [IRBuilder.insertInst, List.map_append, h1, List.map_cons, List.map_nil,
      List.length_append, List.length_cons, List.length_nil, List.range'_concat, h2]
    simp
  · simp only [IRBuilder.insertInst, List.length_append, List.length_cons, List.length_nil, h2]
    omega

/- Constants are folded, for other operands an instruction is inserted. -/
theorem createBinOp_cases {op : Opcode} {fold : Const → Const → Const} {s : IRBuilder} {a b : Value}
    {r : Value × IRBuilder} (hr : IRBuilder.createBinOp op fold s a b = some r) :
    a.ty = b.ty ∧ ((∃ c d, a = .const c ∧ b = .const d ∧ r = (.const (fold c d), s)) ∨
      r = s.insertInst op a.ty [a, b]) := by
  unfold IRBuilder.createBinOp at hr
  split at hr
  · cases hr
  · next hty =>
    refine ⟨not_not.mp hty, ?_⟩
    split at hr
    · cases hr
      exact .inl ⟨_, _, rfl, rfl, rfl⟩
    · cases hr
      exact .inr rfl

theorem createBinOp_some (op : Opcode) (fold : Const → Const → Const) (s : IRBuilder) {a b : Value}
    (hty : a.ty = b.ty) : ∃ r, IRBuilder.createBinOp op fold s a b = some r := by
  unfold IRBuilder.createBinOp
  rw [if_neg (not_not.mpr hty)]
  split <;> exact ⟨_, rfl⟩

theorem createBinOp_from {n : Nat} {s : IRBuilder} (h : s.From n) {op : Opcode}
    {fold : Const → Const → Const} {a b : Value} {r : Value × IRBuilder}
    (hr : IRBuilder.createBinOp op fold s a b = some r) : r.2.From n := by
  obtain ⟨-, ⟨c, d, -, -, rfl⟩ | rfl⟩ := createBinOp_cases hr
  · exact h
  · exact insertInst_from h ..

/- What each multiplication keeps, the scaling keeps. -/
theorem scaleIndices_run {P : IRBuilder → Prop}
    (hstep : ∀ s a b r, P s → IRBuilder.createBinOp .mul Const.foldMul s a b = some r → P r.2) (ps : List Nat)
    {s : IRBuilder} (h : P s) {vs : List Value} {r : List Value × IRBuilder}
    (hr : scaleIndices s ps vs = some r) : P r.2 := by
  induction ps generalizing s vs r with
  | nil =>
    cases hr
    exact h
  | cons p ps ih =>
    cases vs with
    | nil => cases hr
    | cons v vs =>
      obtain ⟨q, hq, hr⟩ := Option.bind_eq_some_iff.mp hr
      obtain ⟨t, ht, hr⟩ := Option.map_eq_some_iff.mp hr
      have hrest := ih (hstep s v _ q h hq) ht
      cases hr
      exact hrest

theorem sumIndices_run {P : IRBuilder → Prop}
    (hstep : ∀ s a b r, P s → IRBuilder.createBinOp .add Const.foldAdd s a b = some r → P r.2) (vs : List Value)
    {s : IRBuilder} (h : P s) {sum : Value} {r : Value × IRBuilder}
    (hr : sumIndices s sum vs = some r) : P r.2 := by
  induction vs generalizing s sum with
  | nil =>
    cases hr
    exact h
  | cons v vs ih =>
    obtain ⟨q, hq, hr⟩ := Option.bind_eq_some_iff.mp hr
    exact ih (hstep s sum v q h hq) hr

theorem scaleIndices_from {n : Nat} (ps : List Nat) {s : IRBuilder} (h : s.From n)
    {vs : List Value} {r : List Value × IRBuilder} (hr : scaleIndices s ps vs = some r) :
    r.2.From n :=
  scaleIndices_run (P := IRBuilder.From n) (fun _ _ _ _ h hr => createBinOp_from h hr) ps h hr

theorem sumIndices_from {n : Nat} (vs : List Value) {s : IRBuilder} (h : s.From n) {sum : Value}
    {r : Value × IRBuilder} (hr : sumIndices s sum vs = some r) : r.2.From n :=
  sumIndices_run (P := IRBuilder.From n) (fun _ _ _ _ h hr => createBinOp_from h hr) vs h hr

/- The steps of the replacement of a GEP. -/
theorem flattenGEP_iff {gep : Inst} {base : Value} {indices : List Value} {sizes : List Nat} {n : Nat}
    {r : Value × IRBuilder} : flattenGEP gep base indices sizes n = some r ↔ ∃ q first sum newTypes t,
      scaleIndices ⟨n, []⟩ (dimProducts 1 sizes.reverse) indices.tail.reverse = some q ∧
      q.1.head? = some first ∧ sumIndices q.2 first q.1.tail = some sum ∧
      getDecomposedMultiDimArrayType base.ty = some newTypes ∧ newTypes.getLast? = some t ∧ gep.ty = t ∧
      r = (sum.2.insertInst .cast t [base]).2.insertInst .getElementPtr t
        [(sum.2.insertInst .cast t [base]).1, sum.1] := by
  constructor
  · intro h
    unfold flattenGEP at h
    obtain ⟨q, hq, h⟩ := Option.bind_eq_some_iff.mp h
    obtain ⟨first, hfirst, h⟩ := Option.bind_eq_some_iff.mp h
    obtain ⟨sum, hsum, h⟩ := Option.bind_eq_some_iff.mp h
    obtain ⟨newTypes, htypes, h⟩ := Option.bind_eq_some_iff.mp h
    obtain ⟨t, ht, h⟩ := Option.bind_eq_some_iff.mp h
    dsimp only at h
    split at h
    · cases h
    · next hty =>
      cases h
      exact ⟨q, first, sum, newTypes, t, hq, hfirst, hsum, htypes, ht, not_not.mp hty, rfl⟩
  · intro h
    obtain ⟨q, first, sum, newTypes, t, hq, hfirst, hsum, htypes, ht, hty, rfl⟩ := h
    unfold flattenGEP
    rw [hq, Option.bind_some, hfirst, Option.bind_some, hsum, Option.bind_some, htypes, Option.bind_some, ht,
      Option.bind_some]
    exact if_neg (not_not.mpr hty)

/- The replacement of a GEP: fresh instructions, the last of them the new GEP. -/
theorem flattenGEP_spec {gep : Inst} {base : Value} {indices : List Value} {sizes : List Nat}
    {n : Nat} {r : Value × IRBuilder} (h : flattenGEP gep base indices sizes n = some r) :
    r.2.From n ∧ ∃ is g sum c, r.2.insts = is ++ [g] ∧ g.val = r.1 ∧ g.ty = gep.ty ∧
      g.op = .getElementPtr ∧ g.operands = [c, sum] := by
  have hstart : (⟨n, []⟩ : IRBuilder).From n := ⟨rfl, rfl⟩
  obtain ⟨q, first, sum, newTypes, t, hq, -, hsum, -, -, hty, rfl⟩ := flattenGEP_iff.mp h
  have hs := sumIndices_from _ (scaleIndices_from _ hstart hq) hsum
  have hg := insertInst_from (insertInst_from hs .cast t [base]) .getElementPtr t
    [(sum.2.insertInst .cast t [base]).1, sum.1]
  exact ⟨hg, _, _, sum.1, _, rfl, rfl, hty.symm, rfl, rfl⟩

/- The value satisfies `S` or was inserted. -/
def IRBuilder.Has (S : Value → Prop) (s : IRBuilder) (v : Value) : Prop := S v ∨ ∃ i ∈ s.insts, v = i.val

/- What was inserted computes, and from nothing but values in `S` and inserted ones. -/
structure IRBuilder.Closed (S : Value → Prop) (s : IRBuilder) : Prop where
  operands : ∀ i ∈ s.insts, ∀ v ∈ i.operands, s.Has S v
  ops : ∀ i ∈ s.insts, i.op = .mul ∨ i.op = .add ∨ i.op = .cast ∨ i.op = .getElementPtr
  edges : ∀ i ∈ s.insts, i.incoming = [] ∧ i.succs = []

theorem IRBuilder.Has.mono {S : Value → Prop} {s s' : IRBuilder} {v : Value} (h : s.Has S v)
    (hs : s.insts <+: s'.insts) : s'.Has S v := by
  rcases h with h | ⟨i, hi, rfl⟩
  · exact .inl h
  · exact .inr ⟨i, hs.subset hi, rfl⟩

section Closed
variable {S : Value → Prop} (hconst : ∀ c, S (.const c))

theorem insertInst_closed {s : IRBuilder} (h : s.Closed S) (op : Opcode) (ty : Ty) (operands : List Value)
    (hop : op = .mul ∨ op = .add ∨ op = .cast ∨ op = .getElementPtr) (hv : ∀ v ∈ operands, s.Has S v) :
    (s.insertInst op ty operands).2.Closed S ∧
      (s.insertInst op ty operands).2.Has S (s.insertInst op ty operands).1 ∧
      s.insts <+: (s.insertInst op ty operands).2.insts := by
  have hpre : s.insts <+: (s.insertInst op ty operands).2.insts := List.prefix_append ..
  refine ⟨⟨?_, ?_, ?_⟩, .inr ⟨_, List.mem_append_right _ (List.mem_singleton_self _), rfl⟩, hpre⟩
  · intro i hi v hvi
    rcases List.mem_append.mp hi with hi | hi
    · exact (h.operands i hi v hvi).mono hpre
    · rw [List.mem_singleton.mp hi] at hvi
      exact (hv v hvi).mono hpre
  · intro i hi
    rcases List.mem_append.mp hi with hi | hi
    · exact h.ops i hi
    · rw [List.mem_singleton.mp hi]
      exact hop
  · intro i hi
    rcases List.mem_append.mp hi with hi | hi
    · exact h.edges i hi
    · rw [List.mem_singleton.mp hi]
      exact ⟨rfl, rfl⟩

include hconst

theorem createBinOp_closed {s : IRBuilder} (h : s.Closed S) {op : Opcode} {fold : Const → Const → Const}
    {a b : Value} (hop : op = .mul ∨ op = .add) (ha : s.Has S a) (hb : s.Has S b)
    {r : Value × IRBuilder} (hr : IRBuilder.createBinOp op fold s a b = some r) :
    r.2.Closed S ∧ r.2.Has S r.1 ∧ s.insts <+: r.2.insts := by
  obtain ⟨-, ⟨c, d, -, -, rfl⟩ | rfl⟩ := createBinOp_cases hr
  · exact ⟨h, .inl (hconst _), List.prefix_rfl⟩
  · refine insertInst_closed h _ _ _ (hop.imp_right .inl) ?_
    intro v hv
    simp only [List.mem_cons, List.not_mem_nil, or_false] at hv
    rcases hv with rfl | rfl
    · exact ha
    · exact hb

theorem scaleIndices_closed (ps : List Nat) {s : IRBuilder} (h : s.Closed S) {vs : List Value}
    (hvs : ∀ v ∈ vs, s.Has S v) {r : List Value × IRBuilder} (hr : scaleIndices s ps vs = some r) :
    r.2.Closed S ∧ (∀ v ∈ r.1, r.2.Has S v) ∧ s.insts <+: r.2.insts := by
  induction ps generalizing s vs r with
  | nil =>
    cases hr
    exact ⟨h, by simp, List.prefix_rfl⟩
  | cons p ps ih =>
    cases vs with
    | nil => cases hr
    | cons v vs =>
      obtain ⟨q, hq, hr⟩ := Option.bind_eq_some_iff.mp hr
      obtain ⟨t, ht, hr⟩ := Option.map_eq_some_iff.mp hr
      obtain ⟨hq1, hq2, hq3⟩ := createBinOp_closed hconst h (.inl rfl) (hvs v (List.mem_cons_self ..))
        (.inl (hconst _)) hq
      obtain ⟨ht1, ht2, ht3⟩ := ih hq1 (fun w hw => (hvs w (List.mem_cons_of_mem _ hw)).mono hq3) ht
      cases hr
      refine ⟨ht1, fun w hw => ?_, hq3.trans ht3⟩
      rcases List.mem_cons.mp hw with rfl | hw
      · exact hq2.mono ht3
      · exact ht2 w hw

theorem sumIndices_closed (vs : List Value) {s : IRBuilder} (h : s.Closed S) {sum : Value}
    (hsum : s.Has S sum) (hvs : ∀ v ∈ vs, s.Has S v) {r : Value × IRBuilder}
    (hr : sumIndices s sum vs = some r) : r.2.Closed S ∧ r.2.Has S r.1 ∧ s.insts <+: r.2.insts := by
  induction vs generalizing s sum with
  | nil =>
    cases hr
    exact ⟨h, hsum, List.prefix_rfl⟩
  | cons v vs ih =>
    obtain ⟨q, hq, hr⟩ := Option.bind_eq_some_iff.mp hr
    obtain ⟨hq1, hq2, hq3⟩ := createBinOp_closed hconst h (.inr rfl) hsum (hvs v (List.mem_cons_self ..)) hq
    obtain ⟨h1, h2, h3⟩ := ih hq1 hq2 (fun w hw => (hvs w (List.mem_cons_of_mem _ hw)).mono hq3) hr
    exact ⟨h1, h2, hq3.trans h3⟩

/- The replacement of a GEP computes from its operands. -/
theorem flattenGEP_closed {gep : Inst} {base : Value} {indices : List Value} {sizes : List Nat} {n : Nat}
    {r : Value × IRBuilder} (hbase : S base) (hidx : ∀ v ∈ indices, S v)
    (h : flattenGEP gep base indices sizes n = some r) : r.2.Closed S ∧ ∃ i ∈ r.2.insts, r.1 = i.val := by
  have hstart : (⟨n, []⟩ : IRBuilder).Closed S :=
    ⟨by simp, by simp, by simp⟩
  obtain ⟨q, first, sum, newTypes, t, hq, hfirst, hsum, -, -, -, rfl⟩ := flattenGEP_iff.mp h
  obtain ⟨hq1, hq2, -⟩ := scaleIndices_closed hconst _ hstart (fun v hv =>
    .inl (hidx v (List.mem_of_mem_tail (List.mem_reverse.mp hv)))) hq
  obtain ⟨hs1, hs2, -⟩ := sumIndices_closed hconst _ hq1 (hq2 first (List.mem_of_mem_head? hfirst))
    (fun v hv => hq2 v (List.mem_of_mem_tail hv)) hsum
  obtain ⟨hc1, hc2, hc3⟩ := insertInst_closed hs1 .cast t [base] (.inr (.inr (.inl rfl))) (by
    intro v hv
    rw [List.mem_singleton.mp hv]
    exact .inl hbase)
  obtain ⟨hg, -, -⟩ := insertInst_closed hc1 .getElementPtr t
    [(sum.2.insertInst .cast t [base]).1, sum.1] (.inr (.inr (.inr rfl))) (by
    intro v hv
    simp only [List.mem_cons, List.not_mem_nil, or_false] at hv
    rcases hv with rfl | rfl
    · exact hc2
    · exact hs2.mono hc3)
  exact ⟨hg, _, List.mem_append_right _ (List.mem_singleton_self _), rfl⟩

end Closed

end Builder

end Atrox
