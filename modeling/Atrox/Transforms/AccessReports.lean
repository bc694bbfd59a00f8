import Atrox.Transforms.ExtractedSignature

/-!
# What the directions of inputs say of the region

The answers of alias analysis against `isRead`, `isWrite` and the directions made of them.
-/

namespace Atrox
open IR Lib

namespace MemoryAccessInfo
variable (mai : MemoryAccessInfo) (M : Module)

/- The instructions that the loops over `Blocks` visit. -/
def visited : List Inst := M.regionInsts mai.blocks

/- Alias analysis reports that the instruction may modify, or read, the memory behind `v`. -/
def mayModify (v : Value) (i : Inst) : Bool := (mai.AA.getModRefInfo i (some (.behind v))).isModSet

def mayRead (v : Value) (i : Inst) : Bool := (mai.AA.getModRefInfo i (some (.behind v))).isRefSet

/- What a direction must include when the region accesses the memory of the input. -/
def DirectionSound (v : Value) (d : ArgDirection) : Prop :=
  (∃ i ∈ mai.visited M, mai.mayModify v i = true) →
    d.isOutbound = true ∧ ((∃ j ∈ mai.visited M, mai.mayRead v j = true) → d.isInbound = true)

/- No access is lost between alias analysis and the direction. The queries ask about what the definition of the input
accesses and not about the memory behind it, so neither half is implied. -/
def AccessesCounted (v : Value) : Prop :=
  (∃ i ∈ mai.visited M, mai.mayModify v i = true) →
    mai.WriteFound M v ∧ ((∃ j ∈ mai.visited M, mai.mayRead v j = true) → mai.ReadFound M v)

end MemoryAccessInfo

/- The direction of a pointer input: what is written is outbound, and inbound too when it is read. -/
theorem inputDirection_spec {M : Module} {mai : MemoryAccessInfo} {v : Value} {d : ArgDirection}
    (hty : v.ty.isPointerTy = true) (h : inputDirection M (some mai) v = some d) :
    (d.isOutbound = true ↔ mai.WriteFound M v) ∧ (mai.WriteFound M v → (d.isInbound = true ↔ mai.ReadFound M v)) := by
  unfold inputDirection at h
  rw [if_neg (by simp [hty])] at h
  obtain ⟨w, hw, h⟩ := Option.bind_eq_some_iff.mp h
  have hwrite := MemoryAccessInfo.isWrite_iff hw
  cases w with
  | false =>
    cases h
    have hno : ¬mai.WriteFound M v := fun hf => by cases hwrite.mpr hf
    exact ⟨⟨fun hd => (by cases hd), fun hf => absurd hf hno⟩, fun hf => absurd hf hno⟩
  | true =>
    obtain ⟨r, hr, rfl⟩ := Option.map_eq_some_iff.mp h
    have hread := MemoryAccessInfo.isRead_iff hr
    cases r with
    | true => exact ⟨⟨fun _ => hwrite.mp rfl, fun _ => rfl⟩, fun _ => ⟨fun _ => hread.mp rfl, fun _ => rfl⟩⟩
    | false =>
      refine ⟨⟨fun _ => hwrite.mp rfl, fun _ => rfl⟩, fun _ => ⟨fun hd => ?_, fun hf => ?_⟩⟩
      · cases hd
      · cases hread.mpr hf

/- The direction of an input covers its accesses exactly when none is lost. -/
theorem inputDirection_sound_iff {M : Module} {mai : MemoryAccessInfo} {v : Value} {d : ArgDirection}
    (hty : v.ty.isPointerTy = true) (h : inputDirection M (some mai) v = some d) :
    mai.DirectionSound M v d ↔ mai.AccessesCounted M v := by
  obtain ⟨hout, hin⟩ := inputDirection_spec hty h
  refine imp_congr_right fun _ => ?_
  constructor
  · intro hd
    have hw := hout.mp hd.1
    exact ⟨hw, fun href => (hin hw).mp (hd.2 href)⟩
  · intro hc
    exact ⟨hout.mpr hc.1, fun href => (hin hc.1).mpr (hc.2 href)⟩

/- Which directions of pointer inputs cover what the region does to their memory. -/
theorem generateArgDirection_sound_iff {M : Module} {inputs outputs : ValueSet} {mai : MemoryAccessInfo}
    {ds : List ArgDirection} (h : generateArgDirection M inputs outputs (some mai) = some ds) {k : Nat}
    {v : Value} (hv : inputs.elems[k]? = some v) (hty : v.ty.isPointerTy = true) :
    ∃ d, ds[k]? = some d ∧ (mai.DirectionSound M v d ↔ mai.AccessesCounted M v) := by
  obtain ⟨is, os, rfl, his, -⟩ := generateArgDirection_spec M inputs outputs (some mai) ds h
  obtain ⟨d, hd, he⟩ := forall₂_getElem? his hv
  refine ⟨d, ?_, inputDirection_sound_iff hty he⟩
  rw [List.getElem?_append_left (List.getElem?_eq_some_iff.mp hd).1]
  exact hd

/- `for (i = 0; i < n; ++i) *p += i` as one read-modify-write of the cell `p`, an instruction in front
of the loop. -/
def rmwLoop : Module where
  funcs := [{ id := 9, params := [⟨"n", .int 32⟩], isVarArg := false, blocks :=
    [⟨0, [⟨18, .alloca, .ptr (.int 32) 0, [.const (.int 32 1)], [], []⟩, Inst.uncondBr 20 1], false⟩,
     ⟨1, [⟨10, .phi, .int 32, [.const (.int 32 0), .inst 16 (.int 32)], [0, 3], []⟩,
          ⟨12, .other 0, .int 1, [.inst 10 (.int 32), .arg 9 0 (.int 32)], [], []⟩,
          ⟨21, .br, .void, [.inst 12 (.int 1)], [], [2, 4]⟩], false⟩,
     ⟨2, [⟨13, .atomicRMW, .int 32, [.inst 18 (.ptr (.int 32) 0), .inst 10 (.int 32)], [], []⟩,
          Inst.uncondBr 22 3], false⟩,
     ⟨3, [⟨16, .add, .int 32, [.inst 10 (.int 32), .const (.int 32 1)], [], []⟩,
          Inst.uncondBr 23 1], false⟩,
     ⟨4, [⟨24, .ret, .void, [], [], []⟩], false⟩] }]
  nextId := 30
  valueName := fun _ => ""
  initUsesBlockAddress := fun _ => false

/- The read-modify-write may read and modify the cell, nothing else touches it. -/
def rmwAccessInfo : MemoryAccessInfo where
  blocks := [2]
  AA := ⟨fun i _ => if i.id = 13 then .modRef else .noModRef, fun _ => .doesNotAccessMemory,
    fun _ => .doesNotAccessMemory, fun _ => true⟩
  ignoreAliasing := true

def rmwReport : Option (CodeExtractor × List ArgDirection) := do
  let ce ← preparedExtractor sumArgs rmwLoop sumInfo
  let ds ← generateArgDirection rmwLoop ce.getPureInputs ce.getOutputs (some rmwAccessInfo)
  return (ce, ds)

theorem rmwReport_spec {ce : CodeExtractor} {ds : List ArgDirection} (h : rmwReport = some (ce, ds)) :
    preparedExtractor sumArgs rmwLoop sumInfo = some ce ∧
      generateArgDirection rmwLoop ce.getPureInputs ce.getOutputs (some rmwAccessInfo) = some ds := by
  unfold rmwReport at h
  obtain ⟨_, hce, h⟩ := Option.bind_eq_some_iff.mp h
  obtain ⟨_, hds, h⟩ := Option.bind_eq_some_iff.mp h
  cases h
  exact ⟨hce, hds⟩

theorem generateArgDirection_sound_iff_rmwLoop : ∃ (ce : CodeExtractor) (ds : List ArgDirection),
    generateArgDirection rmwLoop ce.getPureInputs ce.getOutputs (some rmwAccessInfo) = some ds ∧
    ∃ d, ds[1]? = some d ∧ (rmwAccessInfo.DirectionSound rmwLoop (.inst 18 (.ptr (.int 32) 0)) d ↔
      rmwAccessInfo.AccessesCounted rmwLoop (.inst 18 (.ptr (.int 32) 0))) := by
  have hrun : rmwReport.any (fun r => r.1.getPureInputs.elems[1]? = some (.inst 18 (.ptr (.int 32) 0))) = true := by
    decide
  obtain ⟨⟨ce, ds⟩, hr, hin⟩ := (Option.any_eq_true _ _).mp hrun
  exact ⟨ce, ds, (rmwReport_spec hr).2,
    generateArgDirection_sound_iff (rmwReport_spec hr).2 (of_decide_eq_true hin) rfl⟩

/- The one access reads the cell, and the cell is reported as outbound only. -/
theorem rmwLoop_outbound_only : ∃ ce ds, preparedExtractor sumArgs rmwLoop sumInfo = some ce ∧
    generateArgDirection rmwLoop ce.getPureInputs ce.getOutputs (some rmwAccessInfo) = some ds ∧
    ce.getPureInputs.elems[1]? = some (.inst 18 (.ptr (.int 32) 0)) ∧ ds[1]? = some .outbound ∧
    ¬rmwAccessInfo.DirectionSound rmwLoop (.inst 18 (.ptr (.int 32) 0)) .outbound := by
  have hrun : rmwReport.any (fun r => r.1.getPureInputs.elems[1]? = some (.inst 18 (.ptr (.int 32) 0)) &&
      r.2[1]? = some .outbound) = true := by decide
  obtain ⟨⟨ce, ds⟩, hr, hany⟩ := (Option.any_eq_true _ _).mp hrun
  obtain ⟨hce, hds⟩ := rmwReport_spec hr
  rw [Bool.and_eq_true, decide_eq_true_eq, decide_eq_true_eq] at hany
  refine ⟨ce, ds, hce, hds, hany.1, hany.2, fun hsound => ?_⟩
  have hacc : ∃ i ∈ rmwAccessInfo.visited rmwLoop,
      rmwAccessInfo.mayModify (.inst 18 (.ptr (.int 32) 0)) i = true ∧
      rmwAccessInfo.mayRead (.inst 18 (.ptr (.int 32) 0)) i = true := by
    refine ⟨⟨13, .atomicRMW, .int 32, [.inst 18 (.ptr (.int 32) 0), .inst 10 (.int 32)], [], []⟩, ?_⟩
    decide
  obtain ⟨i, hi, hm, hr⟩ := hacc
  have hin := (hsound ⟨i, hi, hm⟩).2 ⟨i, hi, hr⟩
  cases hin

section Unhandled
variable (mai : MemoryAccessInfo) (M : Module)

namespace MemoryAccessInfo

/- Calls that the switches meet with `llvm_unreachable`, or without a called function to ask about. -/
def unhandled (i : Inst) : Bool :=
  match i.op with
  | .call none false => true
  | .call (some callee) false => match mai.AA.getModRefBehavior callee with
    | .unknownModRefBehavior | .onlyAccessesInaccessibleMem | .onlyAccessesInaccessibleOrArgMem => true
    | _ => false
  | _ => false

/- Every such call is behind the end of the scan, or decided by its mod and ref bits. -/
def ScansEndBefore (inst : Option Inst) (v : Value) : Prop :=
  ∀ pre i post, mai.visited M = pre ++ i :: post → mai.unhandled i = true →
    (((mai.askedAt inst i).isRefSet = true ∧ (mai.askedAt inst i).isModSet = false) ∨
      ∃ j ∈ pre, mai.CountsAsRead inst v j) ∧
    ((mai.askedAt inst i).isModSet = true ∨ ∃ j ∈ pre, mai.CountsAsWrite inst v j)

theorem isReadByCall_none (v : Value) (i : Inst) : mai.isReadByCall v i = none ↔ mai.unhandled i = true := by
  unfold isReadByCall unhandled
  cases i.op with
  | call callee readNone =>
    cases readNone with
    | true => simp
    | false =>
      cases callee with
      | none => simp
      | some callee =>
        simp only [Bool.false_eq_true, if_false, Option.bind_some]
        generalize mai.AA.getModRefBehavior callee = behaviour
        obtain ⟨args, inaccessible, elsewhere, mr⟩ := behaviour
        cases args <;> cases inaccessible <;> cases elsewhere <;> cases mr <;> simp
  | _ => simp

theorem isWrittenByCall_none (v : Value) (i : Inst) :
    mai.isWrittenByCall v i = none ↔ mai.unhandled i = true := by
  unfold isWrittenByCall unhandled
  cases i.op with
  | call callee readNone =>
    cases readNone with
    | true => simp
    | false =>
      cases callee with
      | none => simp
      | some callee =>
        simp only [Bool.false_eq_true, if_false, Option.bind_some]
        generalize mai.AA.getModRefBehavior callee = behaviour
        obtain ⟨args, inaccessible, elsewhere, mr⟩ := behaviour
        cases args <;> cases inaccessible <;> cases elsewhere <;> cases mr <;> simp
  | _ => simp

/- A scan answers when a hit stands in front of every instruction it cannot judge. -/
theorem anyInst_isSome (p : Inst → Option Bool) (is : List Inst) : (anyInst p is).isSome = true ↔
    ∀ pre i post, is = pre ++ i :: post → p i = none → ∃ j ∈ pre, p j = some true := by
  induction is with
  | nil => simp [anyInst]
  | cons x xs ih =>
    rw [anyInst]
    cases hx : p x with
    | none =>
      simp only [Option.bind_none, Option.isSome_none, Bool.false_eq_true, false_iff]
      intro hall
      obtain ⟨j, hj, -⟩ := hall [] x xs rfl hx
      cases hj
    | some b =>
      cases b with
      | true =>
        simp only [Option.bind_some, if_true, Option.isSome_some, true_iff]
        intro pre i post hsplit hi
        cases pre with
        | nil =>
          obtain ⟨rfl, -⟩ := List.cons.inj hsplit
          rw [hx] at hi
          cases hi
        | cons y ys =>
          obtain ⟨rfl, -⟩ := List.cons.inj hsplit
          exact ⟨x, List.mem_cons_self .., hx⟩
      | false =>
        simp only [Option.bind_some, Bool.false_eq_true, if_false]
        rw [ih]
        constructor
        · intro hall pre i post hsplit hi
          cases pre with
          | nil =>
            obtain ⟨rfl, -⟩ := List.cons.inj hsplit
            rw [hx] at hi
            cases hi
          | cons y ys =>
            obtain ⟨rfl, hys⟩ := List.cons.inj hsplit
            obtain ⟨j, hj, hjp⟩ := hall ys i post hys hi
            exact ⟨j, List.mem_cons_of_mem _ hj, hjp⟩
        · intro hall pre i post hsplit hi
          obtain ⟨j, hj, hjp⟩ := hall (x :: pre) i post (by rw [hsplit]; rfl) hi
          rcases List.mem_cons.mp hj with rfl | hj
          · rw [hx] at hjp
            cases hjp
          · exact ⟨j, hj, hjp⟩

theorem readsAt_none (inst : Option Inst) (v : Value) (i : Inst) : mai.readsAt inst v i = none ↔
    ¬((mai.askedAt inst i).isRefSet = true ∧ (mai.askedAt inst i).isModSet = false) ∧ mai.unhandled i = true := by
  unfold readsAt
  dsimp only
  rw [← mai.isReadByCall_none v i]
  split
  · next h =>
    rw [Bool.and_eq_true, Bool.not_eq_true'] at h
    exact ⟨fun hn => (by cases hn), fun hn => absurd h hn.1⟩
  · next h =>
    rw [Bool.and_eq_true, Bool.not_eq_true'] at h
    exact ⟨fun hn => ⟨h, hn⟩, fun hn => hn.2⟩

theorem writesAt_none (inst : Option Inst) (v : Value) (i : Inst) : mai.writesAt inst v i = none ↔
    ¬(mai.askedAt inst i).isModSet = true ∧ mai.unhandled i = true := by
  unfold writesAt
  dsimp only
  rw [← mai.isWrittenByCall_none v i]
  split
  · next h => exact ⟨fun hn => (by cases hn), fun hn => absurd h hn.1⟩
  · next h => exact ⟨fun hn => ⟨h, hn⟩, fun hn => hn.2⟩

/- The scans of an instruction answer when no call that they cannot judge stops them. -/
theorem scans_isSome_iff {j : InstId} {t : Ty} :
    ((mai.isRead M (.inst j t)).isSome = true ∧ (mai.isWrite M (.inst j t)).isSome = true) ↔
      mai.ScansEndBefore M (M.inst? j) (.inst j t) := by
  have hr : (mai.isRead M (.inst j t)).isSome = true ↔ _ :=
    anyInst_isSome (mai.readsAt (M.inst? j) (.inst j t)) (mai.visited M)
  have hw : (mai.isWrite M (.inst j t)).isSome = true ↔ _ :=
    anyInst_isSome (mai.writesAt (M.inst? j) (.inst j t)) (mai.visited M)
  simp only [readsAt_none, readsAt_iff] at hr
  simp only [writesAt_none, writesAt_iff] at hw
  rw [hr, hw]
  constructor
  · rintro ⟨hread, hwrite⟩ pre i post hsplit hun
    exact ⟨Classical.or_iff_not_imp_left.mpr fun hd => hread pre i post hsplit ⟨hd, hun⟩,
      Classical.or_iff_not_imp_left.mpr fun hd => hwrite pre i post hsplit ⟨hd, hun⟩⟩
  · intro hends
    constructor
    · intro pre i post hsplit hnone
      exact (hends pre i post hsplit hnone.2).1.resolve_left hnone.1
    · intro pre i post hsplit hnone
      exact (hends pre i post hsplit hnone.2).2.resolve_left hnone.1

end MemoryAccessInfo
end Unhandled

/- What `isRead` and `isWrite` are asked about. -/
def IR.Value.isQueried : Value → Bool
  | .inst _ _ | .arg _ _ _ | .global _ _ _ => true
  | _ => false

/- A call the filter lets through calls a function without a body. -/
theorem undetected_call {i : Inst} {callee : Option Callee} {readNone : Bool} (hop : i.op = .call callee readNone)
    (h : isDetectedCall i = false) : ∃ c, callee = some c ∧ (c.intrinsic.isSome = true ∨ c.isDeclaration = true) := by
  unfold isDetectedCall at h
  rw [hop] at h
  cases callee with
  | none => cases h
  | some c =>
    refine ⟨c, rfl, ?_⟩
    simp only [Bool.and_eq_false_iff, Bool.not_eq_false'] at h
    rcases h with h | h
    · refine .inl ?_
      cases hi : c.intrinsic with
      | none =>
        rw [hi] at h
        cases h
      | some n => rfl
    · exact .inr h

/- Behind the call filter both queries answer exactly when no external function of an unhandled
behaviour is reached by their scans. -/
theorem queries_answer_iff {mai : MemoryAccessInfo} {M : Module} {v : Value}
    (hfilter : (M.regionInsts mai.blocks).any isDetectedCall = false) (hv : v.isQueried = true) :
    (∀ i ∈ M.regionInsts mai.blocks, mai.unhandled i = true →
      ∃ c, i.op = .call (some c) false ∧ (c.intrinsic.isSome = true ∨ c.isDeclaration = true)) ∧
    (((mai.isRead M v).isSome = true ∧ (mai.isWrite M v).isSome = true) ↔
      ∀ j t, v = .inst j t → mai.ScansEndBefore M (M.inst? j) v) := by
  constructor
  · intro i hi hun
    have hno : isDetectedCall i = false := by
      rw [Bool.eq_false_iff]
      intro hd
      have hany : (M.regionInsts mai.blocks).any isDetectedCall = true := List.any_eq_true.mpr ⟨i, hi, hd⟩
      rw [hfilter] at hany
      cases hany
    unfold MemoryAccessInfo.unhandled at hun
    split at hun
    · next hop =>
      obtain ⟨c, hc, -⟩ := undetected_call hop hno
      cases hc
    · next callee hop =>
      obtain ⟨c, hc, hdecl⟩ := undetected_call hop hno
      cases hc
      exact ⟨callee, hop, hdecl⟩
    · cases hun
  · cases v with
    | inst j t =>
      rw [mai.scans_isSome_iff M]
      refine ⟨fun h j' t' he => ?_, fun h => h j t rfl⟩
      cases he
      exact h
    | arg f k t =>
      refine ⟨fun _ j t he => ?_, fun _ => ⟨rfl, rfl⟩⟩
      cases he
    | global g t a =>
      refine ⟨fun _ j t he => ?_, fun _ => ⟨rfl, rfl⟩⟩
      cases he
    | const c => cases hv
    | func f => cases hv

/- `cell = q; p = cell; for (i = 0; i < n; ++i) { tick(); *p = i; }`: the function `tick` is only declared. -/
def tickLoop : Module where
  funcs := [{ id := 9, params := [⟨"n", .int 32⟩, ⟨"q", .ptr (.int 32) 0⟩], isVarArg := false, blocks :=
    [⟨0, [⟨17, .alloca, .ptr (.ptr (.int 32) 0) 0, [.const (.int 32 1)], [], []⟩,
          ⟨19, .store, .void, [.arg 9 1 (.ptr (.int 32) 0), .inst 17 (.ptr (.ptr (.int 32) 0) 0)], [], []⟩,
          ⟨18, .load, .ptr (.int 32) 0, [.inst 17 (.ptr (.ptr (.int 32) 0) 0)], [], []⟩,
          Inst.uncondBr 20 1], false⟩,
     ⟨1, [⟨10, .phi, .int 32, [.const (.int 32 0), .inst 16 (.int 32)], [0, 3], []⟩,
          ⟨12, .other 0, .int 1, [.inst 10 (.int 32), .arg 9 0 (.int 32)], [], []⟩,
          ⟨21, .br, .void, [.inst 12 (.int 1)], [], [2, 4]⟩], false⟩,
     ⟨2, [⟨13, .call (some ⟨5, true, none⟩) false, .void, [.func 5], [], []⟩,
          ⟨14, .store, .void, [.inst 10 (.int 32), .inst 18 (.ptr (.int 32) 0)], [], []⟩,
          Inst.uncondBr 22 3], false⟩,
     ⟨3, [⟨16, .add, .int 32, [.inst 10 (.int 32), .const (.int 32 1)], [], []⟩,
          Inst.uncondBr 23 1], false⟩,
     ⟨4, [⟨24, .ret, .void, [], [], []⟩], false⟩] }]
  nextId := 30
  valueName := fun _ => ""
  initUsesBlockAddress := fun _ => false

/- Nothing is known of `tick`, and nothing but the two accesses in front of the loop touches the cell, which does not
escape: `p` was loaded from there, so the queries about `p` ask about the cell. -/
def tickAccessInfo : MemoryAccessInfo where
  blocks := [2]
  AA := ⟨fun i loc => if loc.ptr.isInst 17 then .noModRef else if i.id = 14 then .mod else .modRef,
    fun _ => .unknownModRefBehavior, fun _ => .unknownModRefBehavior, fun _ => false⟩
  ignoreAliasing := true

theorem queries_answer_iff_tickLoop :
    ((tickAccessInfo.isRead tickLoop (.inst 18 (.ptr (.int 32) 0))).isSome = true ∧
      (tickAccessInfo.isWrite tickLoop (.inst 18 (.ptr (.int 32) 0))).isSome = true) ↔
      ∀ j t, Value.inst 18 (.ptr (.int 32) 0) = .inst j t →
        tickAccessInfo.ScansEndBefore tickLoop (tickLoop.inst? j) (.inst 18 (.ptr (.int 32) 0)) :=
  (@queries_answer_iff tickAccessInfo tickLoop (.inst 18 (.ptr (.int 32) 0)) (by decide) rfl).2

/- The filter lets the call through, and both queries about the cell run into it. -/
theorem tickLoop_unreachable : ∃ ce, preparedExtractor sumArgs tickLoop sumInfo = some ce ∧
    .inst 18 (.ptr (.int 32) 0) ∈ ce.getPureInputs ∧
    (tickLoop.regionInsts tickAccessInfo.blocks).any isDetectedCall = false ∧
    tickAccessInfo.isRead tickLoop (.inst 18 (.ptr (.int 32) 0)) = none ∧
    tickAccessInfo.isWrite tickLoop (.inst 18 (.ptr (.int 32) 0)) = none := by
  have hrun : (preparedExtractor sumArgs tickLoop sumInfo).any (fun ce =>
      decide (.inst 18 (.ptr (.int 32) 0) ∈ ce.getPureInputs)) = true := by decide
  obtain ⟨ce, hce, hin⟩ := (Option.any_eq_true _ _).mp hrun
  exact ⟨ce, hce, of_decide_eq_true hin, by decide, by decide, by decide⟩

end Atrox
