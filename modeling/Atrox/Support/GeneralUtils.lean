import Atrox.IR.Edit

/-!
# Instruction visitors (GeneralUtils.cpp, MemAccInst.hpp)
-/

namespace Atrox
open IR

/- The cases of the `switch` in `IsIgnoredIntrinsic`. -/
def IR.IntrinsicID.isIgnored : IntrinsicID → Bool
  | .lifetimeStart | .lifetimeEnd | .invariantStart | .invariantEnd | .varAnnotate
  | .ptrAnnotate | .annotate | .donothing | .assume | .dbgValue | .dbgDeclare => true
  | _ => false

def isIgnoredIntrinsic (i : Inst) : Bool := i.op.intrinsic?.any IntrinsicID.isIgnored

/- `ToRemove` of an `InstructionEraser` that has visited the function. -/
def toRemove (f : Function) : List InstId := (f.insts.filter isIgnoredIntrinsic).map Inst.id

/- `eraseFromParent`. A value that still has a user must not be destroyed. -/
def eraseFromParent (M : Module) (i : InstId) : Option Module :=
  if M.insts.any (Inst.uses i) then none
  else some (M.mapBlocks fun b => { b with insts := b.insts.filter fun x => x.id ≠ i })

/- `InstructionEraser::process`. -/
def eraseAll (M : Module) : List InstId → Option Module
  | [] => some M
  | i :: is => (eraseFromParent M i).bind fun M' => eraseAll M' is

/- `CallDetector::visitCallInst`, which intrinsic calls do not reach. `CurM` is set. -/
def isDetectedCall (i : Inst) : Bool :=
  match i.op with
  | .call none _ => true
  | .call (some c) _ => c.intrinsic.isNone && !c.isDeclaration
  | _ => false

/- What `MemAccInstVisitor` collects from blocks. -/
def accessesOf (M : Module) (bs : List BlockId) : List InstId :=
  ((M.regionInsts bs).filter fun i => match i.op with
    | .load | .store | .call _ _ => true
    | _ => false).map Inst.id

/- `MemAccInst::getPointerOperand`. -/
def getPointerOperand (i : Inst) : Option Value :=
  match i.op with
  | .load => i.operands[0]?
  | .store => i.operands[1]?
  | .call (some c) _ => match c.intrinsic with
    | some .memset | some .memcpy | some .memmove => i.operands[0]?
    | _ => none
  | _ => none

/- What `eraseAll` leaves of a block. -/
def keepInsts (is : List InstId) (b : Block) : Block :=
  { b with insts := b.insts.filter fun x => x.id ∉ is }

theorem keepInsts_nil (b : Block) : keepInsts [] b = b := by
  simp [keepInsts]

theorem keepInsts_cons (i : InstId) (is : List InstId) (b : Block) :
    keepInsts is { b with insts := b.insts.filter fun x => x.id ≠ i } = keepInsts (i :: is) b := by
  simp only [keepInsts, List.filter_filter]
  congr 2
  funext x
  by_cases h : x.id = i <;> by_cases h' : x.id ∈ is <;> simp [h, h']

theorem eraseAll_eq (is : List InstId) (M M' : Module) (h : eraseAll M is = some M') :
    M' = M.mapBlocks (keepInsts is) := by
  induction is generalizing M with
  | nil =>
    have hM : M = M' := Option.some.inj h
    have hk : keepInsts [] = fun b => b := funext keepInsts_nil
    rw [hk, mapBlocks_id, hM]
  | cons i is ih =>
    obtain ⟨M₁, h1, h2⟩ := Option.bind_eq_some_iff.mp h
    rw [ih M₁ h2]
    unfold eraseFromParent at h1
    split at h1
    · cases h1
    · cases h1
      rw [mapBlocks_mapBlocks]
      congr 1
      funext b
      exact keepInsts_cons i is b

/- No instruction left over uses an erased one. -/
theorem eraseAll_no_uses (is : List InstId) (M M' : Module) (h : eraseAll M is = some M') :
    ∀ i ∈ is, ∀ u ∈ M'.insts, u.uses i = false := by
  have hsub : ∀ (js : List InstId) (N N' : Module), eraseAll N js = some N' →
      ∀ u ∈ N'.insts, u ∈ N.insts := by
    intro js N N' hN u hu
    rw [eraseAll_eq js N N' hN, Module.insts, mapBlocks_blocks, List.flatMap_map] at hu
    obtain ⟨b, hb, hub⟩ := List.mem_flatMap.mp hu
    exact List.mem_flatMap.mpr ⟨b, hb, List.mem_of_mem_filter hub⟩
  induction is generalizing M with
  | nil => intro i hi; cases hi
  | cons i is ih =>
    obtain ⟨M₁, h1, h2⟩ := Option.bind_eq_some_iff.mp h
    intro j hj u hu
    rcases List.mem_cons.mp hj with rfl | hj
    · have hu1 := hsub is M₁ M' h2 u hu
      unfold eraseFromParent at h1
      split at h1
      · cases h1
      · next hno =>
        cases h1
        have hu0 : u ∈ M.insts := by
          rw [Module.insts, mapBlocks_blocks, List.flatMap_map] at hu1
          obtain ⟨b, hb, hub⟩ := List.mem_flatMap.mp hu1
          exact List.mem_flatMap.mpr ⟨b, hb, List.mem_of_mem_filter hub⟩
        have hall := fun hany => hno (List.any_eq_true.mpr ⟨u, hu0, hany⟩)
        simpa using hall
    · exact ih M₁ h2 j hj u hu

/- Erasing goes through exactly if every user of an erased instruction was erased before it. -/
theorem eraseAll_isSome_iff (is : List InstId) (M : Module) : (eraseAll M is).isSome = true ↔
    ∀ pre i post, is = pre ++ i :: post → ∀ u ∈ M.insts, u.uses i = true → u.id ∈ pre := by
  induction is generalizing M with
  | nil => simp [eraseAll]
  | cons i is ih =>
    have hinsts : ∀ u, u ∈ (M.mapBlocks fun b => { b with insts := b.insts.filter fun x => x.id ≠ i }).insts ↔
        u ∈ M.insts ∧ u.id ≠ i := by
      intro u
      simp only [Module.insts, mapBlocks_blocks, List.flatMap_map, List.mem_flatMap, List.mem_filter,
        decide_eq_true_eq]
      constructor
      · rintro ⟨b, hb, hu, hne⟩
        exact ⟨⟨b, hb, hu⟩, hne⟩
      · rintro ⟨⟨b, hb, hu⟩, hne⟩
        exact ⟨b, hb, hu, hne⟩
    by_cases hany : M.insts.any (Inst.uses i) = true
    · -- a user is left at the first erasure
      have hnone : eraseAll M (i :: is) = none := by
        rw [eraseAll, eraseFromParent, if_pos hany]
        rfl
      obtain ⟨u, hu, huse⟩ := List.any_eq_true.mp hany
      rw [hnone]
      exact ⟨fun h => absurd h (by decide), fun h => absurd (h [] i is rfl u hu huse) List.not_mem_nil⟩
    · have hrun : eraseAll M (i :: is) =
          eraseAll (M.mapBlocks fun b => { b with insts := b.insts.filter fun x => x.id ≠ i }) is := by
        rw [eraseAll, eraseFromParent, if_neg hany]
        rfl
      have hno : ∀ u ∈ M.insts, u.uses i ≠ true := fun u hu huse => hany (List.any_eq_true.mpr ⟨u, hu, huse⟩)
      rw [hrun, ih]
      constructor
      · intro h pre j post hsplit u hu huse
        cases pre with
        | nil =>
          obtain ⟨rfl, -⟩ := List.cons.inj hsplit
          exact absurd huse (hno u hu)
        | cons p pre =>
          obtain ⟨rfl, his⟩ := List.cons.inj hsplit
          by_cases hui : u.id = i
          · exact hui ▸ List.mem_cons_self ..
          · exact List.mem_cons_of_mem _ (h pre j post his u ((hinsts u).mpr ⟨hu, hui⟩) huse)
      · intro h pre j post hsplit u hu huse
        obtain ⟨hu, hne⟩ := (hinsts u).mp hu
        have hm := h (i :: pre) j post (by rw [hsplit]; rfl) u hu huse
        exact (List.mem_cons.mp hm).resolve_left hne

/- The eraser erases only what has no user left, and nothing is left that uses what it erased. -/
def ErasesUnused (M : Module) (f : Function) : Prop :=
  ∃ M', eraseAll M (toRemove f) = some M' ∧ ∀ i ∈ toRemove f, ∀ u ∈ M'.insts, u.uses i = false

/- This is so exactly if every user of an ignored intrinsic of the function is an ignored
intrinsic that stands before it. -/
theorem erasesUnused_iff (M : Module) (f : Function) : ErasesUnused M f ↔
    ∀ pre i post, f.insts = pre ++ i :: post → isIgnoredIntrinsic i = true →
      ∀ u ∈ M.insts, u.uses i.id = true → ∃ j ∈ pre, isIgnoredIntrinsic j = true ∧ j.id = u.id := by
  have hsome : ErasesUnused M f ↔ (eraseAll M (toRemove f)).isSome = true := by
    rw [Option.isSome_iff_exists]
    exact ⟨fun ⟨M', h, _⟩ => ⟨M', h⟩, fun ⟨M', h⟩ => ⟨M', h, eraseAll_no_uses _ M M' h⟩⟩
  rw [hsome, eraseAll_isSome_iff]
  constructor
  · intro h pre i post hsplit hi u hu huse
    have hrem : toRemove f = (pre.filter isIgnoredIntrinsic).map Inst.id ++
        i.id :: (post.filter isIgnoredIntrinsic).map Inst.id := by
      rw [toRemove, hsplit, List.filter_append, List.filter_cons_of_pos hi, List.map_append, List.map_cons]
    obtain ⟨j, hj, hid⟩ := List.mem_map.mp (h _ i.id _ hrem u hu huse)
    obtain ⟨hj, hig⟩ := List.mem_filter.mp hj
    exact ⟨j, hj, hig, hid⟩
  · intro h pre n post hsplit u hu huse
    rw [toRemove, List.map_eq_append_iff] at hsplit
    obtain ⟨is, js, hfilter, rfl, hjs⟩ := hsplit
    obtain ⟨i, js, rfl, rfl, -⟩ := List.map_eq_cons_iff.mp hjs
    obtain ⟨xs, ys, hinsts, rfl, hys⟩ := List.filter_eq_append_iff.mp hfilter
    obtain ⟨zs, ws, rfl, hzs, hi, -⟩ := List.filter_eq_cons_iff.mp hys
    obtain ⟨j, hj, hig, hid⟩ := h (xs ++ zs) i ws (by rw [hinsts, List.append_assoc]) hi u hu huse
    rcases List.mem_append.mp hj with hj | hj
    · exact List.mem_map.mpr ⟨j, List.mem_filter.mpr ⟨hj, hig⟩, hid⟩
    · exact absurd hig (hzs j hj)

/- `%1 = llvm.annotation(%x, ..); %2 = add %1, 1` -/
def annotated : Module where
  funcs := [{ id := 9, params := [⟨"x", .int 32⟩], isVarArg := false, blocks :=
    [⟨0, [⟨1, .call (some ⟨8, true, some .annotate⟩) false, .int 32, [.arg 9 0 (.int 32),
            .const (.symbol 0 (.ptr (.int 8) 0) false), .const (.symbol 1 (.ptr (.int 8) 0) false),
            .const (.int 32 1), .func 8], [], []⟩,
          ⟨2, .add, .int 32, [.inst 1 (.int 32), .const (.int 32 1)], [], []⟩,
          ⟨3, .ret, .void, [.inst 2 (.int 32)], [], []⟩], false⟩] }]
  nextId := 10
  valueName := fun _ => ""
  initUsesBlockAddress := fun _ => false

/- The annotation is erased while the sum uses it. -/
theorem annotated_used : ∃ f ∈ annotated.funcs, toRemove f = [1] ∧ ¬ ErasesUnused annotated f := by
  refine ⟨_, List.mem_singleton_self _, rfl, ?_⟩
  rintro ⟨M', h, -⟩
  exact nomatch h

end Atrox
