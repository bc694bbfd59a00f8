import Atrox.IR.TypedGEP
import Atrox.Transforms.FlattenedAddress

/-!
# Accesses through tables of pointers (DecomposeMultiDimArrayRefs)

The rewriting views the nest as a table of pointers to tables. `none` stands for a
failed assertion of LLVM.
-/

namespace Atrox
open IR

/- The loop over the indices. A GEP asserts that it is applied to a pointer to its source type, and
a load that it is applied to a pointer. The last pointer is not loaded from. -/
def decomposeIndices (s : IRBuilder) (lastPtr : Value) : List Ty → List Value → Option (Value × IRBuilder)
  | t :: ts, i :: is =>
    if lastPtr.ty.pointee ≠ t.pointee then none else
    let g := s.insertInst .getElementPtr (gepReturnType t [lastPtr, i]) [lastPtr, i]
    match is with
    | [] => some g
    | _ :: _ =>
      if ¬ g.1.ty.isPointerTy then none else
      let p := g.2.insertInst .load t.pointee [g.1]
      decomposeIndices p.2 p.1 ts is
  | _, _ => none

/- `DecomposeMultiDimArrayRefs`: the module, and the value that replaces the GEP when
it was rewritten. -/
def decomposeMultiDimArrayRefs (M : Module) (gep : Inst) : Option (Module × Option Value) :=
  match gep.operands with
  | [] => some (M, none)
  | base :: indices =>
    if indices.length < 2 then some (M, none) else
    (getDecomposedMultiDimArrayType base.ty).bind fun newTypes =>
    if newTypes.length ≠ indices.length then some (M, none) else
    (newTypes.head?).bind fun t =>
      let c := (⟨M.nextId, []⟩ : IRBuilder).insertInst .cast t [base]
      (decomposeIndices c.2 c.1 newTypes indices).bind fun r =>
        if gep.ty ≠ r.1.ty then none else
        let M' := (M.replaceAllUsesWith gep.val r.1).replaceInst gep.id r.2.insts
        some ({ M' with nextId := r.2.nextId }, some r.1)

/- The pointer that the tables lead to, and the entries read on the way. -/
def tableWalk (DL : DataLayout) (mem : Word → Word) : List Ty → Word → List Word → Word × List Word
  | t :: ts, p, i :: is =>
    let q := p + i * DL.typeAllocSize t.pointee
    match is with
    | [] => (q, [])
    | _ :: _ =>
      let r := tableWalk DL mem ts (mem q) is
      (r.1, q :: r.2)
  | _, p, _ => (p, [])

section Walk
variable {DL : DataLayout} {mem : Word → Word} {x : Exec}

theorem insertInst_reads (s : IRBuilder) (op : Opcode) (ty : Ty) (operands : List Value) :
    ((s.insertInst op ty operands).2.exec DL mem x).reads = (s.exec DL mem x).reads ++
      Inst.addressesRead (s.exec DL mem x).env ⟨s.nextId, op, ty, operands, [], []⟩ := by
  rw [insertInst_exec]
  rfl

theorem insertInst_gep {s : IRBuilder} {t : Ty} {lastPtr i : Value} {p w : Word} (hp : s.Holds DL mem x lastPtr p)
    (hi : s.Holds DL mem x i w) : s.Extends DL mem x (s.insertInst .getElementPtr t [lastPtr, i]).2 ∧
      (s.insertInst .getElementPtr t [lastPtr, i]).2.Holds DL mem x (s.insertInst .getElementPtr t [lastPtr, i]).1
        (p + w * DL.typeAllocSize lastPtr.ty.pointee) ∧
      ((s.insertInst .getElementPtr t [lastPtr, i]).2.exec DL mem x).reads = (s.exec DL mem x).reads := by
  obtain ⟨hext, hholds⟩ := insertInst_holds DL mem x s .getElementPtr t [lastPtr, i]
  refine ⟨hext, ?_, ?_⟩
  · have hres : Inst.result DL mem (s.exec DL mem x).env ⟨s.nextId, .getElementPtr, t, [lastPtr, i], [], []⟩ =
        p + w * DL.typeAllocSize lastPtr.ty.pointee := by
      simp only [Inst.result, List.map_cons, List.map_nil, DataLayout.gepAddress, DataLayout.offset, add_zero,
        hp.eval, hi.eval]
    exact hres ▸ hholds
  · rw [insertInst_reads]
    exact List.append_nil _

theorem insertInst_load {s : IRBuilder} {t : Ty} {ptr : Value} {p : Word} (hp : s.Holds DL mem x ptr p) :
    s.Extends DL mem x (s.insertInst .load t [ptr]).2 ∧
      (s.insertInst .load t [ptr]).2.Holds DL mem x (s.insertInst .load t [ptr]).1 (mem p) ∧
      ((s.insertInst .load t [ptr]).2.exec DL mem x).reads = (s.exec DL mem x).reads ++ [p] := by
  obtain ⟨hext, hholds⟩ := insertInst_holds DL mem x s .load t [ptr]
  refine ⟨hext, ?_, ?_⟩
  · have hres : Inst.result DL mem (s.exec DL mem x).env ⟨s.nextId, .load, t, [ptr], [], []⟩ = mem p := by
      simp only [Inst.result, hp.eval]
    exact hres ▸ hholds
  · rw [insertInst_reads]
    simp only [Inst.addressesRead, hp.eval]

/- The GEP for an index, and the load behind it. -/
def indexGEP (s : IRBuilder) (lastPtr : Value) (t : Ty) (i : Value) : Value × IRBuilder :=
  s.insertInst .getElementPtr (gepReturnType t [lastPtr, i]) [lastPtr, i]

def indexLoad (s : IRBuilder) (lastPtr : Value) (t : Ty) (i : Value) : Value × IRBuilder :=
  (indexGEP s lastPtr t i).2.insertInst .load t.pointee [(indexGEP s lastPtr t i).1]

theorem decomposeIndices_last (s : IRBuilder) (lastPtr : Value) (t : Ty) (ts : List Ty) (i : Value) :
    decomposeIndices s lastPtr (t :: ts) [i] =
      if lastPtr.ty.pointee ≠ t.pointee then none else some (indexGEP s lastPtr t i) := rfl

theorem decomposeIndices_cons (s : IRBuilder) (lastPtr : Value) (t : Ty) (ts : List Ty) (i j : Value) (is : List Value) :
    decomposeIndices s lastPtr (t :: ts) (i :: j :: is) =
      if lastPtr.ty.pointee ≠ t.pointee then none
      else if ¬ (indexGEP s lastPtr t i).1.ty.isPointerTy then none
      else decomposeIndices (indexLoad s lastPtr t i).2 (indexLoad s lastPtr t i).1 ts (j :: is) := rfl

/- The last index gets a GEP; each one before it gets a GEP to a pointer, and a load of that. -/
theorem decomposeIndices_induct {motive : IRBuilder → Value → List Ty → List Value → Prop} {r : Value × IRBuilder}
    (last : ∀ s lastPtr t ts i, lastPtr.ty.pointee = t.pointee → r = indexGEP s lastPtr t i →
      motive s lastPtr (t :: ts) [i])
    (cons : ∀ s lastPtr t ts i j is, lastPtr.ty.pointee = t.pointee →
      (indexGEP s lastPtr t i).1.ty.isPointerTy = true →
      motive (indexLoad s lastPtr t i).2 (indexLoad s lastPtr t i).1 ts (j :: is) →
        motive s lastPtr (t :: ts) (i :: j :: is))
    {s : IRBuilder} {lastPtr : Value} {ts : List Ty} {is : List Value}
    (hr : decomposeIndices s lastPtr ts is = some r) : motive s lastPtr ts is := by
  induction ts generalizing is s lastPtr with
  | nil => exact nomatch hr
  | cons t ts ih =>
    match is with
    | [] => exact nomatch hr
    | [i] =>
      rw [decomposeIndices_last] at hr
      split at hr
      · cases hr
      · next hty => exact last s lastPtr t ts i (not_not.mp hty) (Option.some.inj hr).symm
    | i :: j :: is =>
      rw [decomposeIndices_cons] at hr
      split at hr
      · cases hr
      · next hty =>
        split at hr
        · cases hr
        · next hptr => exact cons s lastPtr t ts i j is (not_not.mp hty) (not_not.mp hptr) (ih hr)

theorem decomposeIndices_from {n : Nat} {ts : List Ty} {is : List Value} {s : IRBuilder} (h : s.From n) {lastPtr : Value}
    {r : Value × IRBuilder} (hr : decomposeIndices s lastPtr ts is = some r) : r.2.From n := by
  refine decomposeIndices_induct (motive := fun s _ _ _ => s.From n → r.2.From n) ?_ ?_ hr h
  · intro s lastPtr t ts i _ hlast h
    rw [hlast]
    exact insertInst_from h ..
  · intro s lastPtr t ts i j is _ _ ih h
    exact ih (insertInst_from (insertInst_from h ..) ..)

/- The chain follows the tables. -/
theorem decomposeIndices_holds {ts : List Ty} {is : List Value} {ws : List Word} {s : IRBuilder} {lastPtr : Value}
    {p : Word} (hp : s.Holds DL mem x lastPtr p) (his : List.Forall₂ (s.Holds DL mem x) is ws)
    {r : Value × IRBuilder} (hr : decomposeIndices s lastPtr ts is = some r) :
    r.2.Holds DL mem x r.1 (tableWalk DL mem ts p ws).1 ∧
      (r.2.exec DL mem x).reads = (s.exec DL mem x).reads ++ (tableWalk DL mem ts p ws).2 := by
  revert hp his
  refine decomposeIndices_induct (motive := fun s lastPtr ts is => ∀ {ws : List Word} {p : Word},
    s.Holds DL mem x lastPtr p → List.Forall₂ (s.Holds DL mem x) is ws →
      r.2.Holds DL mem x r.1 (tableWalk DL mem ts p ws).1 ∧
        (r.2.exec DL mem x).reads = (s.exec DL mem x).reads ++ (tableWalk DL mem ts p ws).2) ?_ ?_ hr
  · intro s lastPtr t ts i hty hlast ws p hp his
    obtain ⟨w, _, hi, hnil, rfl⟩ := List.forall₂_cons_left_iff.mp his
    obtain rfl := List.forall₂_nil_left_iff.mp hnil
    obtain ⟨-, hgh, hgr⟩ := insertInst_gep (t := gepReturnType t [lastPtr, i]) hp hi
    rw [hty] at hgh
    rw [hlast]
    exact ⟨hgh, by rw [indexGEP, hgr]; exact (List.append_nil _).symm⟩
  · intro s lastPtr t ts i j is hty _ ih ws p hp his
    obtain ⟨w, _, hi, hrest, rfl⟩ := List.forall₂_cons_left_iff.mp his
    obtain ⟨u, _, -, -, rfl⟩ := List.forall₂_cons_left_iff.mp hrest
    obtain ⟨hge, hgh, hgr⟩ := insertInst_gep (t := gepReturnType t [lastPtr, i]) hp hi
    rw [hty] at hgh
    obtain ⟨hle, hlh, hlr⟩ := insertInst_load (t := t.pointee) hgh
    have hlater := hrest.imp fun _ _ h => (h.mono hge).mono hle
    obtain ⟨h1, h2⟩ := ih hlh hlater
    refine ⟨h1, ?_⟩
    rw [h2, indexLoad, indexGEP, hlr, hgr, List.append_assoc]
    rfl

/- With one more index to go something is read. -/
theorem tableWalk_reads (DL : DataLayout) (mem : Word → Word) (t : Ty) (ts : List Ty) (p i j : Word) (is : List Word) :
    (tableWalk DL mem (t :: ts) p (i :: j :: is)).2 ≠ [] := List.cons_ne_nil _ _

/- A memory that holds one pointer everywhere. -/
theorem tableWalk_const (DL : DataLayout) {ts : List Ty} {is : List Word} (hlen : ts.length = is.length) (t u : Ty)
    (i j : Word) :
    ∃ d, ∀ c p, (tableWalk DL (fun _ => c) (t :: u :: ts) p (i :: j :: is)).1 = c + d := by
  induction ts generalizing is t u i j with
  | nil =>
    obtain rfl := List.length_eq_zero_iff.mp hlen.symm
    exact ⟨j * DL.typeAllocSize u.pointee, fun c p => rfl⟩
  | cons v ts ih =>
    cases is with
    | nil => exact nomatch hlen
    | cons k is =>
      obtain ⟨d, hd⟩ := ih (Nat.succ.inj hlen) u v j k
      exact ⟨d, fun c p => hd c c⟩

end Walk

section Decompose
variable {M : Module} {gep : Inst} {M' : Module} {v : Value}

/- What is known of a GEP that was rewritten. -/
theorem decompose_some (hrun : decomposeMultiDimArrayRefs M gep = some (M', some v)) :
    ∃ base i j is t u ts, gep.operands = base :: i :: j :: is ∧ ts.length = is.length ∧
      ∃ r, decomposeIndices ((⟨M.nextId, []⟩ : IRBuilder).insertInst .cast t [base]).2
          ((⟨M.nextId, []⟩ : IRBuilder).insertInst .cast t [base]).1 (t :: u :: ts) (i :: j :: is) = some r ∧
        v = r.1 ∧ M' = { (M.replaceAllUsesWith gep.val v).replaceInst gep.id r.2.insts with nextId := r.2.nextId } := by
  unfold decomposeMultiDimArrayRefs at hrun
  split at hrun
  · exact nomatch hrun
  · next base indices hops =>
    split at hrun
    · exact nomatch hrun
    · next hlen =>
      obtain ⟨newTypes, -, hrun⟩ := Option.bind_eq_some_iff.mp hrun
      split at hrun
      · exact nomatch hrun
      · next heq =>
        obtain ⟨t, ht, hrun⟩ := Option.bind_eq_some_iff.mp hrun
        obtain ⟨r, hr, hrun⟩ := Option.bind_eq_some_iff.mp hrun
        dsimp only at hrun
        split at hrun
        · exact nomatch hrun
        · obtain ⟨h1, h2⟩ := Prod.mk.inj (Option.some.inj hrun)
          obtain rfl := Option.some.inj h2
          have hl := not_not.mp heq
          -- there are two indices and as many types
          match indices, newTypes with
          | [], _ => exact absurd (Nat.zero_lt_two) hlen
          | [_], _ => exact absurd (Nat.one_lt_two) hlen
          | _ :: _ :: _, [] => exact nomatch hl
          | _ :: _ :: _, [_] => exact nomatch hl
          | i :: j :: is, t' :: u :: ts =>
            obtain rfl := Option.some.inj ht
            exact ⟨base, i, j, is, t', u, ts, hops, Nat.succ.inj (Nat.succ.inj hl), r, hr, rfl, h1.symm⟩

/- The chain in the place of a GEP leads through the tables. -/
theorem decompose_walk (DL : DataLayout) (hbelow : ∀ u ∈ gep.operands, u.below M.nextId)
    (hrun : decomposeMultiDimArrayRefs M gep = some (M', some v)) :
    ∃ is, M' = { (M.replaceAllUsesWith gep.val v).replaceInst gep.id is with nextId := M.nextId + is.length } ∧
      ∃ base i j vs t u ts, gep.operands = base :: i :: j :: vs ∧ ts.length = vs.length ∧ ∀ mem σ,
        v.eval (Exec.run DL mem ⟨σ, []⟩ is).env =
          (tableWalk DL mem (t :: u :: ts) (base.eval σ) ((i :: j :: vs).map (Value.eval σ))).1 ∧
        (Exec.run DL mem ⟨σ, []⟩ is).reads =
          (tableWalk DL mem (t :: u :: ts) (base.eval σ) ((i :: j :: vs).map (Value.eval σ))).2 := by
  obtain ⟨base, i, j, vs, t, u, ts, hops, hlen, r, hr, rfl, hM'⟩ := decompose_some hrun
  have hstart : (⟨M.nextId, []⟩ : IRBuilder).From M.nextId := ⟨rfl, rfl⟩
  have hnext : r.2.nextId = M.nextId + r.2.insts.length :=
    (decomposeIndices_from (insertInst_from hstart .cast t [base]) hr).2
  refine ⟨r.2.insts, by rw [hM', hnext], base, i, j, vs, t, u, ts, hops, hlen, fun mem σ => ?_⟩
  rw [hops] at hbelow
  obtain ⟨hce, hch⟩ := insertInst_holds DL mem ⟨σ, []⟩ ⟨M.nextId, []⟩ .cast t [base]
  have hvs : List.Forall₂ (((⟨M.nextId, []⟩ : IRBuilder).insertInst .cast t [base]).2.Holds DL mem ⟨σ, []⟩)
      (i :: j :: vs) ((i :: j :: vs).map (Value.eval σ)) := by
    rw [List.forall₂_map_right_iff, List.forall₂_same]
    exact fun w hw => IRBuilder.Holds.mono ⟨hbelow w (List.mem_cons_of_mem _ hw), rfl⟩ hce
  obtain ⟨h1, h2⟩ := decomposeIndices_holds hch hvs hr
  exact ⟨h1.eval, h2⟩

/- No rewritten GEP keeps its address in every memory, and every one reads memory
that it did not read before. -/
theorem decomposeMultiDimArrayRefs_never (DL : DataLayout) (hop : gep.op = .getElementPtr)
    (hbelow : ∀ u ∈ gep.operands, u.below M.nextId)
    (hrun : decomposeMultiDimArrayRefs M gep = some (M', some v)) :
    ∃ is, M' = { (M.replaceAllUsesWith gep.val v).replaceInst gep.id is with nextId := M.nextId + is.length } ∧
      ∀ σ, (∃ mem, v.eval (Exec.run DL mem ⟨σ, []⟩ is).env ≠ gep.result DL mem σ) ∧
        ∀ mem, gep.addressesRead σ = [] ∧ (Exec.run DL mem ⟨σ, []⟩ is).reads ≠ [] := by
  obtain ⟨is, hM', base, i, j, vs, t, u, ts, hops, hlen, hwalk⟩ := decompose_walk DL hbelow hrun
  refine ⟨is, hM', fun σ => ⟨?_, fun mem => ⟨?_, ?_⟩⟩⟩
  · obtain ⟨d, hd⟩ := tableWalk_const DL (hlen.trans (List.length_map (Value.eval σ)).symm) t u (i.eval σ) (j.eval σ)
    -- the address of the GEP is the same in every memory
    have hres : ∀ mem, gep.result DL mem σ = gep.result DL id σ := by
      intro mem
      rw [Inst.result, Inst.result, hop, hops]
    refine ⟨fun _ => gep.result DL id σ - d + 1, ?_⟩
    rw [(hwalk _ σ).1, List.map_cons, List.map_cons, hd, hres fun _ => gep.result DL id σ - d + 1]
    intro he
    have hone : (1 : Word) = 0 := by
      have hsum : gep.result DL id σ - d + 1 + d = gep.result DL id σ + 1 := by ring
      rw [hsum] at he
      exact add_eq_left.mp he
    exact absurd hone (by decide)
  · rw [Inst.addressesRead, hop]
  · rw [(hwalk mem σ).2, List.map_cons, List.map_cons]
    exact tableWalk_reads DL mem t (u :: ts) _ _ _ _

theorem decomposeMultiDimArrayRefs_never_matrixGEP :
    ∃ M' v, decomposeMultiDimArrayRefs matrixRead matrixGEP = some (M', some v) ∧
      ∃ is, M' = { (matrixRead.replaceAllUsesWith matrixGEP.val v).replaceInst matrixGEP.id is with
          nextId := matrixRead.nextId + is.length } ∧
        ∀ σ, (∃ mem, v.eval (Exec.run packedLayout mem ⟨σ, []⟩ is).env ≠ matrixGEP.result packedLayout mem σ) ∧
          ∀ mem, matrixGEP.addressesRead σ = [] ∧ (Exec.run packedLayout mem ⟨σ, []⟩ is).reads ≠ [] :=
  ⟨_, _, rfl, decomposeMultiDimArrayRefs_never packedLayout rfl (by decide) rfl⟩

/- `a[0][0][0]` with `a` at 1000 reads what is stored there as a pointer, twice. -/
theorem matrixRead_null_table : ∃ M' v is,
    decomposeMultiDimArrayRefs matrixRead matrixGEP = some (M', some v) ∧
    M'.insts = is ++ [⟨11, .load, .int 32, [v], [], []⟩, ⟨12, .ret, .void, [.inst 11 (.int 32)], [], []⟩] ∧
    matrixGEP.result packedLayout (fun _ => 0) (fun u => if u = .arg 9 0 (.ptr matrixTy 0) then 1000 else 0) = 1000 ∧
    v.eval (Exec.run packedLayout (fun _ => 0)
      ⟨fun u => if u = .arg 9 0 (.ptr matrixTy 0) then 1000 else 0, []⟩ is).env = 0 ∧
    (Exec.run packedLayout (fun _ => 0)
      ⟨fun u => if u = .arg 9 0 (.ptr matrixTy 0) then 1000 else 0, []⟩ is).reads = [1000, 0] :=
  ⟨_, .inst 25 (.ptr (.int 32) 0),
    [⟨20, .cast, .ptr (.ptr (.ptr (.int 32) 0) 0) 0, [.arg 9 0 (.ptr matrixTy 0)], [], []⟩,
     ⟨21, .getElementPtr, .ptr (.ptr (.ptr (.int 32) 0) 0) 0,
       [.inst 20 (.ptr (.ptr (.ptr (.int 32) 0) 0) 0), .arg 9 1 (.int 64)], [], []⟩,
     ⟨22, .load, .ptr (.ptr (.int 32) 0) 0, [.inst 21 (.ptr (.ptr (.ptr (.int 32) 0) 0) 0)], [], []⟩,
     ⟨23, .getElementPtr, .ptr (.ptr (.int 32) 0) 0,
       [.inst 22 (.ptr (.ptr (.int 32) 0) 0), .arg 9 2 (.int 64)], [], []⟩,
     ⟨24, .load, .ptr (.int 32) 0, [.inst 23 (.ptr (.ptr (.int 32) 0) 0)], [], []⟩,
     ⟨25, .getElementPtr, .ptr (.int 32) 0, [.inst 24 (.ptr (.int 32) 0), .arg 9 3 (.int 64)], [], []⟩],
    rfl, rfl, by decide, by decide, by decide⟩

end Decompose

end Atrox
