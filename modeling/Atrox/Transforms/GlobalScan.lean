import Atrox.Transforms.CodeExtractor

/-!
# The scan for global variables

`findGlobalInputsOutputs` filters the GEPs of the region with `std::remove_if` and then
erases a single element, so that GEPs on local bases may be left at the end of the list.
-/

namespace Atrox
open IR Lib

/- A store, or a load, is among the users of the GEP. -/
def hasStore (M : Module) (gep : Inst) : Bool := (M.users gep.val).any fun u => u.op = .store

def hasLoad (M : Module) (gep : Inst) : Bool := (M.users gep.val).any fun u => u.op = .load

/- The GEPs of the region. -/
def regionGeps (M : Module) (blocks : SetVector BlockId) : List Inst :=
  (M.regionInsts blocks.elems).filter fun i => i.op = .getElementPtr

def onGlobal (gep : Inst) : Bool := (gepPointer gep).any Value.isGlobalVariable

/- The GEPs behind the erased element: with `k` GEPs on globals, those from position `k + 1` on. -/
def leftoverGeps (M : Module) (blocks : SetVector BlockId) : List Inst :=
  (regionGeps M blocks).drop (((regionGeps M blocks).filter onGlobal).length + 1)

/- The scan adds the globals stored to, all of them and nothing else, to the outputs, and
only globals loaded from to the inputs. -/
structure AddsGlobals (M : Module) (blocks : SetVector BlockId) (old new : ValueSet × ValueSet) : Prop where
  outputs : ∀ v, v ∈ new.2 ↔ v ∈ old.2 ∨
    v.isGlobalVariable = true ∧ ∃ gep ∈ regionGeps M blocks, gepPointer gep = some v ∧ hasStore M gep = true
  inputs_sub : ∀ v, v ∈ old.1 → v ∈ new.1
  inputs : ∀ v, v ∈ new.1 → v ∈ old.1 ∨
    v.isGlobalVariable = true ∧ ∃ gep ∈ regionGeps M blocks, gepPointer gep = some v ∧ hasLoad M gep = true

section Scan
variable (M : Module)

theorem findGlobalStep_outputs (st : ValueSet × ValueSet) (gep : Inst) (v : Value) :
    v ∈ (findGlobalStep M st gep).2 ↔ v ∈ st.2 ∨ gepPointer gep = some v ∧ hasStore M gep = true := by
  rw [findGlobalStep]
  cases hp : gepPointer gep with
  | none => simp
  | some p =>
    dsimp only
    split
    · next hs =>
      rw [SetVector.mem_insert, Option.some.injEq, eq_comm (a := p)]
      exact or_congr_right ⟨fun he => ⟨he, hs⟩, And.left⟩
    · next hs => exact ⟨.inl, fun h => h.resolve_right fun hr => hs hr.2⟩

theorem findGlobalStep_inputs (st : ValueSet × ValueSet) (gep : Inst) (v : Value) :
    v ∈ (findGlobalStep M st gep).1 ↔ v ∈ st.1 ∨
      gepPointer gep = some v ∧ hasLoad M gep = true ∧ gep.val ∉ (findGlobalStep M st gep).2 := by
  have hany : ∀ outs : ValueSet, ((M.users gep.val).any fun u => gep.val ∉ outs && u.op = .load) = true ↔
      hasLoad M gep = true ∧ gep.val ∉ outs := by
    intro outs
    simp only [hasLoad, List.any_eq_true, Bool.and_eq_true, decide_eq_true_eq]
    exact ⟨fun ⟨u, hu, hno, hl⟩ => ⟨⟨u, hu, hl⟩, hno⟩, fun ⟨⟨u, hu, hl⟩, hno⟩ => ⟨u, hu, hno, hl⟩⟩
  rw [findGlobalStep]
  cases hp : gepPointer gep with
  | none => simp
  | some p =>
    dsimp only
    generalize (if ((M.users gep.val).any fun u => u.op = .store) = true then st.2.insert p else st.2) = outs
    rw [Option.some.injEq, eq_comm (a := p)]
    split
    · next hl =>
      rw [SetVector.mem_insert]
      exact or_congr_right ⟨fun he => ⟨he, (hany _).mp hl⟩, And.left⟩
    · next hl => exact ⟨.inl, fun h => h.resolve_right fun hr => hl ((hany _).mpr hr.2)⟩

theorem scan_outputs (geps : List Inst) (st : ValueSet × ValueSet) (v : Value) :
    v ∈ (geps.foldl (findGlobalStep M) st).2 ↔
      v ∈ st.2 ∨ ∃ gep ∈ geps, gepPointer gep = some v ∧ hasStore M gep = true := by
  induction geps generalizing st with
  | nil => simp
  | cons gep geps ih => rw [List.foldl_cons, ih, findGlobalStep_outputs, List.exists_mem_cons_iff, or_assoc]

theorem scan_inputs_sub (geps : List Inst) (st : ValueSet × ValueSet) {v : Value} (hv : v ∈ st.1) :
    v ∈ (geps.foldl (findGlobalStep M) st).1 := by
  induction geps generalizing st with
  | nil => exact hv
  | cons gep geps ih => exact ih _ ((findGlobalStep_inputs M st gep v).mpr (.inl hv))

/- What is added to the inputs was loaded from, and its GEP was no output to begin with. -/
theorem scan_inputs (geps : List Inst) (st : ValueSet × ValueSet) {v : Value}
    (hv : v ∈ (geps.foldl (findGlobalStep M) st).1) :
    v ∈ st.1 ∨ ∃ gep ∈ geps, gepPointer gep = some v ∧ hasLoad M gep = true ∧ gep.val ∉ st.2 := by
  induction geps generalizing st with
  | nil => exact .inl hv
  | cons gep geps ih =>
    have hgrow : ∀ w, w ∉ (findGlobalStep M st gep).2 → w ∉ st.2 := fun w hw hold =>
      hw ((findGlobalStep_outputs M st gep w).mpr (.inl hold))
    rcases ih _ hv with hv | ⟨g, hg, hp, hl, hno⟩
    · rcases (findGlobalStep_inputs M st gep v).mp hv with hv | ⟨hp, hl, hno⟩
      · exact .inl hv
      · exact .inr ⟨gep, List.mem_cons_self .., hp, hl, hgrow _ hno⟩
    · exact .inr ⟨g, List.mem_cons_of_mem gep hg, hp, hl, hgrow _ hno⟩

/- A GEP that is no output in the end had its base added. -/
theorem scan_inputs_of_load (geps : List Inst) (st : ValueSet × ValueSet) {gep : Inst} (hgep : gep ∈ geps) {v : Value}
    (hp : gepPointer gep = some v) (hl : hasLoad M gep = true)
    (hno : gep.val ∉ (geps.foldl (findGlobalStep M) st).2) : v ∈ (geps.foldl (findGlobalStep M) st).1 := by
  induction geps generalizing st with
  | nil => exact absurd hgep List.not_mem_nil
  | cons g geps ih =>
    rcases List.mem_cons.mp hgep with rfl | hgep
    · refine scan_inputs_sub M geps _ ((findGlobalStep_inputs M st gep v).mpr (.inr ⟨hp, hl, fun hmem => hno ?_⟩))
      exact (scan_outputs M geps _ gep.val).mpr (.inl hmem)
    · exact ih _ hgep hno

end Scan

section Globals
variable (M : Module) (blocks : SetVector BlockId)

theorem globalGeps_eq : globalGeps M blocks = (regionGeps M blocks).filter onGlobal ++ leftoverGeps M blocks := by
  have hfilter : ((regionGeps M blocks).filter fun x => !(!(gepPointer x).any Value.isGlobalVariable)) =
      (regionGeps M blocks).filter onGlobal := by
    congr 1
    funext x
    rw [Bool.not_not, onGlobal]
  rw [globalGeps, removeIfEraseOne, leftoverGeps, ← hfilter]
  rfl

theorem mem_globalGeps {gep : Inst} : gep ∈ globalGeps M blocks ↔
    gep ∈ regionGeps M blocks ∧ onGlobal gep = true ∨ gep ∈ leftoverGeps M blocks := by
  rw [globalGeps_eq, List.mem_append, List.mem_filter]

theorem onGlobal_iff {gep : Inst} {p : Value} (hp : gepPointer gep = some p) :
    onGlobal gep = true ↔ p.isGlobalVariable = true := by
  rw [onGlobal, hp, Option.any_some]

/- The scan does its work exactly if the GEPs left behind add nothing: a base of theirs that
is stored to, or loaded from, is in the set already. -/
theorem findGlobalInputsOutputs_iff (inputs outputs : ValueSet) :
    AddsGlobals M blocks (inputs, outputs) (findGlobalInputsOutputs M blocks inputs outputs) ↔
      ∀ gep ∈ leftoverGeps M blocks, ∀ p, gepPointer gep = some p → p.isGlobalVariable = false →
        (hasStore M gep = true → p ∈ outputs) ∧ (hasLoad M gep = true → gep.val ∉ outputs → p ∈ inputs) := by
  rw [findGlobalInputsOutputs]
  constructor
  · intro h gep hgep p hp hloc
    have hin : gep ∈ globalGeps M blocks := (mem_globalGeps M blocks).mpr (.inr hgep)
    have hloc' : ¬ p.isGlobalVariable = true := by rw [hloc]; decide
    constructor
    · intro hs
      have hnew := (scan_outputs M (globalGeps M blocks) (inputs, outputs) p).mpr (.inr ⟨gep, hin, hp, hs⟩)
      exact ((h.outputs p).mp hnew).resolve_right fun hg => hloc' hg.1
    · intro hl hno
      -- a GEP is no global, so it is an output only if it was one before
      have hno' : gep.val ∉ ((globalGeps M blocks).foldl (findGlobalStep M) (inputs, outputs)).2 := fun hnew =>
        ((h.outputs gep.val).mp hnew).elim hno fun hg => nomatch hg.1
      have hnew := scan_inputs_of_load M (globalGeps M blocks) (inputs, outputs) hin hp hl hno'
      exact (h.inputs p hnew).resolve_right fun hg => hloc' hg.1
  · intro h
    have hregion : ∀ gep ∈ globalGeps M blocks, gep ∈ regionGeps M blocks := fun gep hgep =>
      ((mem_globalGeps M blocks).mp hgep).elim And.left fun hl => List.mem_of_mem_drop hl
    -- a GEP of the scan is on a global, or left behind and harmless
    have hcase : ∀ gep ∈ globalGeps M blocks, ∀ v, gepPointer gep = some v → v.isGlobalVariable = true ∨
        (hasStore M gep = true → v ∈ outputs) ∧ (hasLoad M gep = true → gep.val ∉ outputs → v ∈ inputs) := by
      intro gep hgep v hv
      rcases (mem_globalGeps M blocks).mp hgep with hg | hl
      · exact .inl ((onGlobal_iff hv).mp hg.2)
      · cases hglob : v.isGlobalVariable with
        | true => exact .inl rfl
        | false => exact .inr (h gep hl v hv hglob)
    refine ⟨fun v => ?_, fun v hv => scan_inputs_sub M _ (inputs, outputs) hv, fun v hv => ?_⟩
    · rw [scan_outputs]
      constructor
      · rintro (hold | ⟨gep, hgep, hp, hs⟩)
        · exact .inl hold
        · rcases hcase gep hgep v hp with hglob | hloc
          · exact .inr ⟨hglob, gep, hregion gep hgep, hp, hs⟩
          · exact .inl (hloc.1 hs)
      · rintro (hold | ⟨hglob, gep, hgep, hp, hs⟩)
        · exact .inl hold
        · exact .inr ⟨gep, (mem_globalGeps M blocks).mpr (.inl ⟨hgep, (onGlobal_iff hp).mpr hglob⟩), hp, hs⟩
    · rcases scan_inputs M _ (inputs, outputs) hv with hold | ⟨gep, hgep, hp, hl, hno⟩
      · exact .inl hold
      · rcases hcase gep hgep v hp with hglob | hloc
        · exact .inr ⟨hglob, gep, hregion gep hgep, hp, hl⟩
        · exact .inl (hloc.2 hl hno)

/- Block 1 stores through two GEPs on arguments. -/
def twoGeps : Module where
  funcs := [{ id := 9, params := [⟨"p", .ptr (.int 32) 0⟩, ⟨"q", .ptr (.int 32) 0⟩], isVarArg := false, blocks :=
    [⟨0, [Inst.uncondBr 10 1], false⟩,
     ⟨1, [⟨11, .getElementPtr, .ptr (.int 32) 0, [.arg 9 0 (.ptr (.int 32) 0), .const (.int 64 1)], [], []⟩,
          ⟨12, .store, .void, [.const (.int 32 7), .inst 11 (.ptr (.int 32) 0)], [], []⟩,
          ⟨13, .getElementPtr, .ptr (.int 32) 0, [.arg 9 1 (.ptr (.int 32) 0), .const (.int 64 1)], [], []⟩,
          ⟨14, .store, .void, [.const (.int 32 7), .inst 13 (.ptr (.int 32) 0)], [], []⟩,
          Inst.uncondBr 15 2], false⟩,
     ⟨2, [⟨16, .ret, .void, [], [], []⟩], false⟩] }]
  nextId := 20
  valueName := fun _ => ""
  initUsesBlockAddress := fun _ => false

/- The second one stays in the list, and its base becomes an output. -/
theorem findGlobalInputsOutputs_twoGeps :
    ¬ AddsGlobals twoGeps (SetVector.ofList [1]) (findInputsOutputs twoGeps (SetVector.ofList [1]) ∅ ∅)
      (findGlobalInputsOutputs twoGeps (SetVector.ofList [1])
        (findInputsOutputs twoGeps (SetVector.ofList [1]) ∅ ∅).1
        (findInputsOutputs twoGeps (SetVector.ofList [1]) ∅ ∅).2) := by
  intro h
  rcases (h.outputs (.arg 9 1 (.ptr (.int 32) 0))).mp (by decide) with hold | hglob
  · exact absurd hold (by decide)
  · exact nomatch hglob.1

end Globals

end Atrox
