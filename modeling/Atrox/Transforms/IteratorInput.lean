import Atrox.Transforms.ExtractedSignature
import Atrox.Transforms.PreparedSets

/-!
# The iterator among the parameters

`ReorderInputs` moves the first iterator of the inputs to the front before the pure
inputs are known. What follows for the first parameter.
-/

namespace Atrox
open IR Lib

section Sever

theorem followRAUW_mem {β : Type} {src dst v : Value} {m : AList fun _ : Value => β}
    (h : v ∈ followRAUW src dst m) : v ∈ m ∨ v = dst := by
  unfold followRAUW at h
  split at h
  · exact .inl h
  · split at h
    · exact .inl (AList.mem_erase.mp h).2
    · rcases (AList.mem_insert _).mp h with h | h
      · exact .inr h
      · exact .inl (AList.mem_erase.mp h).2

/- A key gives way to a fresh one: the values stay. -/
theorem followRAUW_image {src dst : Value} {m : OutputToInputMapTy} (hdst : dst ∉ m) (v : Value) :
    IsImage (followRAUW src dst m) v ↔ IsImage m v := by
  have herase : dst ∉ m.erase src := fun h => hdst (AList.mem_erase.mp h).2
  unfold followRAUW
  split
  · exact Iff.rfl
  · next t ht =>
    rw [if_neg herase]
    constructor
    · rintro ⟨o, ho⟩
      by_cases hd : o = dst
      · subst hd
        rw [AList.lookup_insert] at ho
        exact ⟨src, ht.trans ho⟩
      · rw [AList.lookup_insert_ne hd] at ho
        by_cases hs : o = src
        · subst hs
          rw [AList.lookup_erase] at ho
          cases ho
        · rw [AList.lookup_erase_ne hs] at ho
          exact ⟨o, ho⟩
    · rintro ⟨o, ho⟩
      by_cases hs : o = src
      · subst hs
        refine ⟨dst, ?_⟩
        rw [AList.lookup_insert]
        exact ht.symm.trans ho
      · have hd : o ≠ dst := by
          rintro rfl
          exact hdst (AList.lookup_isSome.mp (by rw [ho]; rfl))
        refine ⟨o, ?_⟩
        rw [AList.lookup_insert_ne hd, AList.lookup_erase_ne hs]
        exact ho

/- What severing does to the map from outputs to inputs, when `n` bounds the old numbers. -/
structure KeepsImages (n : Nat) (m m' : OutputToInputMapTy) : Prop where
  image : ∀ v, IsImage m' v ↔ IsImage m v
  keys : ∀ v ∈ m', v ∈ m ∨ ∃ j t, v = .inst j t ∧ n ≤ j

theorem severSplitPHINodes_images {ce ce' : CodeExtractor} {M M' : Module} {header header' : BlockId}
    (hkeys : ∀ j t, Value.inst j t ∈ ce.outputToInputMap → M.nextId > j)
    (h : severSplitPHINodes ce M header = some (ce', M', header')) :
    KeepsImages M.nextId ce.outputToInputMap ce'.outputToInputMap := by
  have hrefl : KeepsImages M.nextId ce.outputToInputMap ce.outputToInputMap :=
    ⟨fun _ => Iff.rfl, fun _ hv => .inl hv⟩
  -- every key is an old one or has a number below the counter
  have hrun := severSplitPHINodes_run (P := fun c N =>
    KeepsImages M.nextId ce.outputToInputMap c.outputToInputMap ∧
      (∀ j t, Value.inst j t ∈ c.outputToInputMap → N.nextId > j) ∧ M.nextId ≤ N.nextId) h ?_ ?_ ?_
  · rcases hrun with ⟨rfl, -, -⟩ | ⟨-, hkeep, -, -⟩
    · exact hrefl
    · exact hkeep
  · intro _ _ _ _
    exact ⟨hrefl, fun j t hv => Nat.lt_succ_of_lt (hkeys j t hv), Nat.le_succ _⟩
  · intro _ _ _ hP
    exact hP
  · rintro c N c' N' pn ⟨hk, hlt, hn⟩ hstep
    obtain ⟨PN, moved, kept, -, -, -, rfl, rfl⟩ := severPHI_inv hstep
    have hfresh : Value.inst N.nextId PN.ty ∉ c.outputToInputMap := fun hm =>
      Nat.lt_irrefl _ (hlt _ _ hm)
    refine ⟨⟨fun v => (followRAUW_image hfresh v).trans (hk.image v), fun v hv => ?_⟩, ?_, ?_⟩
    · rcases followRAUW_mem hv with hv | rfl
      · exact hk.keys v hv
      · exact .inr ⟨_, _, rfl, hn⟩
    · intro j t hv
      rcases followRAUW_mem hv with hv | he
      · exact Nat.lt_succ_of_lt (hlt j t hv)
      · have hj : j = N.nextId := by injection he
        rw [hj]
        exact Nat.lt_succ_self _
    · exact Nat.le_succ_of_le hn

/- Inputs keep their kind when the header is severed. -/
theorem severed_isBidirectional {ce₀ ce ce' : CodeExtractor} {M M' : Module} {header header' : BlockId}
    {acc : Option (List InstId)} (hM : M.WF) (hp : ce₀.prepare M = some ce)
    (h : severSplitPHINodes { ce with accesses := acc } M header = some (ce', M', header')) :
    ∀ v ∈ ce.inputs, ce'.isBidirectional v = ce.isBidirectional v := by
  have hmem := prepare_inputs_mem hp
  have hmap := (prepare_maps hp).2
  have hkeys : ∀ j t, Value.inst j t ∈ ce.outputToInputMap → M.nextId > j := by
    intro j t hv
    rw [hmap] at hv
    obtain ⟨w, hw⟩ := Option.isSome_iff_exists.mp (AList.lookup_isSome.mpr hv)
    exact findAll_outputs_lt hM ((findAll_maps ce₀ M).toInput _ w hw).1
  have hk := severSplitPHINodes_images (by exact hkeys) h
  dsimp only at hk
  intro v hv
  have hv' := (hmem v).mp hv
  rw [CodeExtractor.isBidirectional, CodeExtractor.isBidirectional, Bool.eq_iff_iff, isBidirectional_iff,
    isBidirectional_iff, hk.image v]
  constructor
  · rintro (hm | hi)
    · rcases hk.keys v hm with hm | ⟨j, t, rfl, hj⟩
      · exact .inl hm
      · have := findAll_inputs_lt hM hv'
        omega
    · exact .inr hi
  · rintro (hm | hi)
    · rw [hmap] at hm ⊢
      exact .inr (findAll_image hv' hm)
    · exact .inr hi

theorem severed_getPureInputs {ce₀ ce ce' : CodeExtractor} {M M' : Module} {header header' : BlockId}
    {acc : Option (List InstId)} (hM : M.WF) (hp : ce₀.prepare M = some ce) (hins : ce'.inputs = ce.inputs)
    (hsa : ce'.stackAllocas = ce.stackAllocas)
    (h : severSplitPHINodes { ce with accesses := acc } M header = some (ce', M', header')) :
    ce'.getPureInputs = ce.getPureInputs := by
  have hbid := severed_isBidirectional hM hp h
  apply SetVector.ext
  simp only [CodeExtractor.getPureInputs, SetVector.filter, hins]
  apply List.filter_congr
  intro v hv
  simp only [CodeExtractor.isInputOnly, hbid v hv, hsa]

end Sever

theorem preparedExtractor_spec {a : CloneLoopArgs} {M : Module} {info : IteratorInfo} {ce : CodeExtractor}
    (h : preparedExtractor a M info = some ce) :
    ∃ ce₀ : CodeExtractor, ce₀.prepare M = some ce ∧ ce₀.iterInfo = some info ∧ ce.blocks = ce₀.blocks ∧
      ce.aggregateArgs = a.aggregateArgs ∧ ∀ b ∈ ce.blocks, b ∈ a.rpo ∧ b ∈ a.selected := by
  obtain ⟨ce₀, h0, hp⟩ := Option.bind_eq_some_iff.mp h
  have hsub := codeExtractor_blocks h0
  obtain ⟨blocks, -, rfl⟩ := Option.map_eq_some_iff.mp h0
  obtain ⟨ins, sa, si, rfl, -⟩ := prepare_spec hp
  refine ⟨_, hp, rfl, rfl, rfl, fun b hb => ?_⟩
  have hm := List.mem_filter.mp (hsub b hb)
  exact ⟨hm.1, by simpa using hm.2⟩

section First
variable {α : Type} [DecidableEq α]

/- The elements in front of the first `p`. -/
def before (p : α) (l : List α) : List α := l.takeWhile fun v => v ≠ p

theorem before_append {p : α} {pre post : List α} (h : p ∉ pre) :
    before p (pre ++ post) = pre ++ before p post := by
  refine List.takeWhile_append_of_pos fun v hv => ?_
  simp only [decide_eq_true_eq]
  rintro rfl
  exact h hv

theorem before_self (p : α) (post : List α) : before p (p :: post) = [] := by
  simp [before]

/- The first element with the property is `p` when none in front of it has it. -/
theorem find?_eq_some_before {q : α → Bool} {p : α} {l : List α} (hp : p ∈ l) (hq : q p = true) :
    l.find? q = some p ↔ ∀ v ∈ before p l, q v = false := by
  induction l with
  | nil => cases hp
  | cons x l ih =>
    by_cases hx : x = p
    · subst hx
      simp [before_self, hq]
    · have hmem : p ∈ l := (List.mem_cons.mp hp).resolve_left fun he => hx he.symm
      have hbefore : before p (x :: l) = x :: before p l := by
        simp [before, hx]
      rw [hbefore, List.find?_cons]
      cases hqx : q x with
      | true => simp [hqx, hx]
      | false => simp [hqx, ih hmem]

end First

/- Exactly one pure input is an iterator: any two are the same. -/
theorem countIterators_unique {ce : CodeExtractor} {info : IteratorInfo}
    (h : countIterators ce info = 1) {p q : Value} (hp : p ∈ ce.getPureInputs)
    (hpi : isIteratorInput info p = true) (hq : q ∈ ce.getPureInputs)
    (hqi : isIteratorInput info q = true) : p = q := by
  unfold countIterators at h
  rw [List.countP_eq_length_filter, List.length_eq_one_iff] at h
  obtain ⟨x, hx⟩ := h
  have hpm : p ∈ [x] := hx ▸ List.mem_filter.mpr ⟨hp, hpi⟩
  have hqm : q ∈ [x] := hx ▸ List.mem_filter.mpr ⟨hq, hqi⟩
  rw [List.mem_singleton.mp hpm, List.mem_singleton.mp hqm]

/- No iterator, or no pure input, is found ahead of `p`. -/
def FoundFirst (info : IteratorInfo) (ce : CodeExtractor) (found : ValueSet) (p : Value) : Prop :=
  (∀ v ∈ before p found.elems, isIteratorInput info v = false) ∨
    ∀ v ∈ before p found.elems, ce.isInputOnly v = false

theorem prepare_first_iff {ce₀ ce : CodeExtractor} {M : Module} {info : IteratorInfo} {p : Value}
    (hp : ce₀.prepare M = some ce) (hinfo : ce₀.iterInfo = some info)
    (hone : countIterators ce info = 1) (hpure : p ∈ ce.getPureInputs)
    (hit : isIteratorInput info p = true) :
    ce.getPureInputs.elems.head? = some p ↔ FoundFirst info ce (ce₀.findAll M).inputs p := by
  obtain ⟨hpin, hpq⟩ := SetVector.mem_filter.mp hpure
  obtain ⟨ins, sa, si, hce, hre⟩ := prepare_spec hp
  have hins : ce.inputs = ins := by rw [hce]
  rw [hinfo] at hre
  obtain ⟨b, hre⟩ := hre
  have hhead : ce.getPureInputs.elems.head? = ins.elems.find? ce.isInputOnly := by
    rw [← hins]
    exact List.head?_filter
  rw [hhead]
  rw [hins] at hpin
  rcases reorderInputs_spec _ info (b, ins) hre with ⟨hnil, he⟩ | ⟨pre, f, post, hfound, hf, hpre, hord⟩
  · rw [show ins = _ from he, SetVector.mem_def, hnil] at hpin
    cases hpin
  · dsimp only at hord
    have hppre : p ∉ pre := fun hm => by
      have := hpre p hm
      rw [hit] at this
      cases this
    rw [hord, FoundFirst, hfound, before_append hppre]
    by_cases hpf : p = f
    · -- the first iterator of all is the pure one
      subst hpf
      rw [before_self, List.append_nil, List.find?_cons, hpq]
      exact ⟨fun _ => .inl hpre, fun _ => rfl⟩
    · have hfpure : ce.isInputOnly f = false := by
        cases hfq : ce.isInputOnly f with
        | false => rfl
        | true =>
          have hfin : f ∈ ce.inputs := by
            rw [hins, SetVector.mem_def, hord]
            exact List.mem_cons_self ..
          exact absurd (countIterators_unique hone hpure hit (SetVector.mem_filter.mpr ⟨hfin, hfq⟩) hf) hpf
      have hmem : p ∈ pre ++ post := by
        rw [SetVector.mem_def, hord] at hpin
        exact (List.mem_cons.mp hpin).resolve_left hpf
      have hcons : before p (f :: post) = f :: before p post := by
        simp [before, Ne.symm hpf]
      rw [List.find?_cons, hfpure, find?_eq_some_before hmem hpq, before_append hppre, hcons]
      constructor
      · intro h
        refine .inr fun v hv => ?_
        rcases List.mem_append.mp hv with hv | hv
        · exact h v (List.mem_append_left _ hv)
        · rcases List.mem_cons.mp hv with rfl | hv
          · exact hfpure
          · exact h v (List.mem_append_right _ hv)
      · rintro (h | h) v hv
        · have := h f (List.mem_append_right _ (List.mem_cons_self ..))
          rw [hf] at this
          cases this
        · refine h v ?_
          rcases List.mem_append.mp hv with hv | hv
          · exact List.mem_append_left _ hv
          · exact List.mem_append_right _ (List.mem_cons_of_mem _ hv)

/- The slot of the iterator is the first one exactly when it is found first. -/
theorem cloneLoop_first_iff {a : CloneLoopArgs} {M : Module} {storeInfo : List FunctionArgSpec}
    {r : CloneLoopResult} {info : IteratorInfo} {ce ce' : CodeExtractor} {f : FuncId} {p : Value}
    (hM : M.WF) (hrpo : ∀ b ∈ a.rpo, ∃ x ∈ M.blocks, x.id = b)
    (hinfo : iteratorInfo a.itrInfo = some info) (hvalid : info.valid = true)
    (hce : preparedExtractor a M info = some ce) (hpure : p ∈ ce.getPureInputs)
    (hit : isIteratorInput info p = true) (h : cloneLoop a M storeInfo = some r)
    (hr : r.extracted = some (ce', f)) :
    ∃ F, r.M.funcs.find? (fun g => g.id = f) = some F ∧ F.params = signature r.M ce' ∧
      ((slots ce').head? = some p ↔ FoundFirst info ce (ce.findAll M).inputs p) := by
  rcases cloneLoop_cases h with rfl | ⟨info', ce₁, ce₂, M', f', hx⟩
  · cases hr
  obtain ⟨-, hrM, hrx, -⟩ := recordInfo_spec hx.recorded
  obtain rfl : info = info' := Option.some.inj (hinfo.symm.trans hx.info_eq)
  obtain rfl : ce = ce₁ := Option.some.inj (hce.symm.trans hx.prepared)
  rw [hrx] at hr
  cases hr
  obtain ⟨ce₀, hp, hinfo₀, hblocks, -, hsub⟩ := preparedExtractor_spec hce
  have hbs : ∀ b ∈ ce.blocks.elems, ∃ x ∈ M.blocks, x.id = b := fun b hb => hrpo b (hsub b hb).1
  obtain ⟨x, hM', rfl⟩ := cloneCodeRegion_extraction hM (by exact hbs) hx.cloned
  have hpin : ce'.getPureInputs = ce.getPureInputs :=
    severed_getPureInputs hM hp x.from_.sets.inputs x.from_.sets.stackAllocas x.severed_eq
  have hfound : (ce.findAll M).inputs = (ce₀.findAll M).inputs := by
    simp only [CodeExtractor.findAll, hblocks]
  have hhead : (slots ce').head? = ce.getPureInputs.elems.head? := by
    rw [slots, hpin, List.head?_append_of_ne_nil]
    exact List.ne_nil_of_mem hpure
  refine ⟨x.cloned.newFunction, ?_, ?_, ?_⟩
  · rw [hrM, hM']
    exact x.find_function
  · rw [hrM, hM']
    exact x.cloned.newFunction_signature
  · rw [hhead, hfound]
    exact prepare_first_iff hp hinfo₀ (hx.count hvalid) hpure hit

theorem cloneLoop_first_iff_sumLoop : ∃ ce r ce' f F, preparedExtractor sumArgs sumLoop sumInfo = some ce ∧
    cloneLoop sumArgs sumLoop [] = some r ∧ r.extracted = some (ce', f) ∧
    r.M.funcs.find? (fun g => g.id = f) = some F ∧ F.params = signature r.M ce' ∧
    ((slots ce').head? = some (.inst 10 (.int 32)) ↔
      FoundFirst sumInfo ce (ce.findAll sumLoop).inputs (.inst 10 (.int 32))) := by
  have hprep : (preparedExtractor sumArgs sumLoop sumInfo).any
      (fun ce => .inst 10 (.int 32) ∈ ce.getPureInputs) = true := by decide
  have hrun : ((cloneLoop sumArgs sumLoop []).bind CloneLoopResult.extracted).isSome = true := by decide
  obtain ⟨ce, hce, hpure⟩ := (Option.any_eq_true _ _).mp hprep
  obtain ⟨⟨ce', f⟩, hx⟩ := Option.isSome_iff_exists.mp hrun
  obtain ⟨r, hr, hx⟩ := Option.bind_eq_some_iff.mp hx
  obtain ⟨F, hF, hparams, hiff⟩ := cloneLoop_first_iff sumLoop_wf (by decide) rfl rfl hce
    (of_decide_eq_true hpure) (by decide) hr hx
  exact ⟨ce, r, ce', f, F, hce, hr, hx, hF, hparams, hiff⟩

/- `for (i = 0, j = 0; j < n; ++i) j = x + j + i`: both counters are iterators. -/
def skipLoop : Module where
  funcs := [{ id := 9, params := [⟨"x", .int 32⟩, ⟨"n", .int 32⟩], isVarArg := false, blocks :=
    [⟨0, [Inst.uncondBr 20 1], false⟩,
     ⟨1, [⟨10, .phi, .int 32, [.const (.int 32 0), .inst 16 (.int 32)], [0, 3], []⟩,
          ⟨11, .phi, .int 32, [.const (.int 32 0), .inst 15 (.int 32)], [0, 3], []⟩,
          ⟨12, .other 0, .int 1, [.inst 11 (.int 32), .arg 9 1 (.int 32)], [], []⟩,
          ⟨21, .br, .void, [.inst 12 (.int 1)], [], [2, 4]⟩], false⟩,
     ⟨2, [⟨14, .add, .int 32, [.arg 9 0 (.int 32), .inst 11 (.int 32)], [], []⟩,
          ⟨15, .add, .int 32, [.inst 14 (.int 32), .inst 10 (.int 32)], [], []⟩,
          Inst.uncondBr 22 3], false⟩,
     ⟨3, [⟨16, .add, .int 32, [.inst 10 (.int 32), .const (.int 32 1)], [], []⟩,
          Inst.uncondBr 23 1], false⟩,
     ⟨4, [⟨24, .ret, .void, [.inst 11 (.int 32)], [], []⟩], false⟩] }]
  nextId := 30
  valueName := fun v => match v with
    | .arg _ 0 _ => "x"
    | .inst 10 _ => "i"
    | .inst 15 _ => "j.next"
    | _ => ""
  initUsesBlockAddress := fun _ => false

def skipInfo : IteratorInfo := ⟨fun i => i ∈ [10, 11, 12, 15, 16, 21], true⟩

def skipArgs : CloneLoopArgs := { sumArgs with itrInfo := some (some skipInfo) }

/- `i` is the one pure iterator, and the parameter `x` stands before it. -/
theorem skipLoop_iterator_second :
    (preparedExtractor skipArgs skipLoop skipInfo).map (fun ce =>
      (ce.inputs.elems, ce.getPureInputs.elems.filter (isIteratorInput skipInfo))) =
      some ([.inst 11 (.int 32), .arg 9 0 (.int 32), .inst 10 (.int 32)], [.inst 10 (.int 32)]) ∧
    (cloneLoop skipArgs skipLoop []).map (fun r => (r.extracted.map fun e => (slots e.1).head?,
      (r.M.funcs.find? fun g => some g.id = r.extracted.map Prod.snd).map Function.params)) =
      some (some (some (.arg 9 0 (.int 32))),
        some [⟨"x", .int 32⟩, ⟨"i", .int 32⟩, ⟨"j.next.out", .ptr (.int 32) 0⟩]) := by
  decide

end Atrox
