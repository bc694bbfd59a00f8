import Mathlib.Data.List.AList
import Atrox.Analysis.MemoryAccessInfo
import Atrox.Lib.SetVector
import Atrox.Transforms.BlockSeparator

/-!
# Arguments of the extracted function (ArgUtils.cpp)
-/

namespace Atrox
open IR Lib

abbrev ValueSet := SetVector Value
abbrev OutputToInputMapTy := AList fun _ : Value => Value
abbrev InputToOutputMapTy := AList fun _ : Value => Nat

/- `enum ArgDirection : uint8_t`. -/
inductive ArgDirection where
  | inbound
  | outbound
  | both
  deriving DecidableEq

def ArgDirection.toInt : ArgDirection → Nat
  | .inbound => 1
  | .outbound => 2
  | .both => 1 ||| 2

def ArgDirection.isInbound (d : ArgDirection) : Bool :=
  d.toInt &&& ArgDirection.toInt .inbound ≠ 0

def ArgDirection.isOutbound (d : ArgDirection) : Bool :=
  d.toInt &&& ArgDirection.toInt .outbound ≠ 0

def isBidirectional (v : Value) (outputToInput : OutputToInputMapTy) : Bool :=
  outputToInput.entries.any fun e => e.1 = v || e.2 = v

def isIteratorInput (info : IteratorInfo) : Value → Bool
  | .inst i _ => info.isIterator i
  | _ => false

/- `ReorderInputs`: whether it changed the order, and the inputs. The sources
dereference `found` even when there is no iterator. -/
def reorderInputs (inputs : ValueSet) (info : IteratorInfo) : Option (Bool × ValueSet) :=
  if inputs.elems = [] then some (false, inputs) else
  (inputs.elems.find? (isIteratorInput info)).bind fun tmp =>
    if inputs.elems.head? = some tmp then some (false, inputs) else
      let rest := (inputs.remove tmp).elems.reverse ++ [tmp]
      some (true, SetVector.ofList rest.reverse)

/- The disposition numbered 2 counts as iterator dependent. -/
def generateArgIteratorVariance (inputs outputs : ValueSet) (getDisposition : Value → Int) :
    List Bool :=
  (inputs.elems ++ outputs.elems).map fun e => getDisposition e = 2

def inputDirection (M : Module) (mai : Option MemoryAccessInfo) (v : Value) :
    Option ArgDirection :=
  if v.ty.isPointerTy = false then some .inbound else
  match mai with
  | none => some .both
  | some mai => (mai.isWrite M v).bind fun w =>
    if w then (mai.isRead M v).map fun r => if r then .both else .outbound
    else some .inbound

def outputDirection (M : Module) (mai : Option MemoryAccessInfo) (v : Value) :
    Option ArgDirection :=
  match mai with
  | none => some .both
  | some mai => (mai.isRead M v).map fun r => if r then .both else .outbound

def generateArgDirection (M : Module) (inputs outputs : ValueSet)
    (mai : Option MemoryAccessInfo) : Option (List ArgDirection) :=
  (inputs.elems.mapM (inputDirection M mai)).bind fun is =>
    (outputs.elems.mapM (outputDirection M mai)).map fun os => is ++ os

theorem mapM_spec {α β : Type} (f : α → Option β) (as : List α) (bs : List β)
    (h : as.mapM f = some bs) : List.Forall₂ (fun a b => f a = some b) as bs := by
  induction as generalizing bs with
  | nil =>
    cases h
    exact .nil
  | cons a as ih =>
    rw [List.mapM_cons] at h
    obtain ⟨b, hb, h⟩ := Option.bind_eq_some_iff.mp h
    obtain ⟨bs', hbs, h⟩ := Option.bind_eq_some_iff.mp h
    cases h
    exact .cons hb (ih bs' hbs)

/- Entry by entry, directions come from the inputs and then the outputs. -/
theorem generateArgDirection_spec (M : Module) (inputs outputs : ValueSet)
    (mai : Option MemoryAccessInfo) (ds : List ArgDirection)
    (h : generateArgDirection M inputs outputs mai = some ds) :
    ∃ is os, ds = is ++ os ∧
      List.Forall₂ (fun v d => inputDirection M mai v = some d) inputs.elems is ∧
      List.Forall₂ (fun v d => outputDirection M mai v = some d) outputs.elems os := by
  obtain ⟨is, his, h⟩ := Option.bind_eq_some_iff.mp h
  obtain ⟨os, hos, h⟩ := Option.map_eq_some_iff.mp h
  exact ⟨is, os, h.symm, mapM_spec _ _ _ his, mapM_spec _ _ _ hos⟩

/- The first iterator goes to the front, the others keep their order. -/
theorem reorderInputs_first {inputs : ValueSet} {info : IteratorInfo} {pre post : List Value} {f : Value}
    (hsplit : inputs.elems = pre ++ f :: post) (hf : isIteratorInput info f = true)
    (hpre : ∀ v ∈ pre, isIteratorInput info v = false) :
    ∃ outs, reorderInputs inputs info = some (!pre.isEmpty, outs) ∧ outs.elems = f :: (pre ++ post) := by
  have hfind : inputs.elems.find? (isIteratorInput info) = some f := by
    rw [List.find?_eq_some_iff_append]
    exact ⟨hf, pre, post, hsplit, fun v hv => by simp [hpre v hv]⟩
  have hne : inputs.elems ≠ [] := by
    rw [hsplit]
    exact List.append_ne_nil_of_right_ne_nil pre (List.cons_ne_nil f post)
  have hnd := inputs.nodup
  rw [hsplit] at hnd
  rw [reorderInputs, if_neg hne, hfind, Option.bind_some]
  cases pre with
  | nil =>
    rw [if_pos (by rw [hsplit]; rfl)]
    exact ⟨inputs, rfl, hsplit⟩
  | cons p pre =>
    have hfpre : f ∉ p :: pre := fun hm => by
      have hno := hpre f hm
      rw [hf] at hno
      cases hno
    have hhead : inputs.elems.head? ≠ some f := by
      rw [hsplit]
      exact fun h => hfpre (Option.some.inj h ▸ List.mem_cons_self ..)
    have herase : (inputs.remove f).elems = p :: pre ++ post := by
      simp only [SetVector.remove, hsplit, List.erase_append_right _ hfpre, List.erase_cons_head]
    have hnd' : (f :: (p :: pre ++ post)).Nodup := List.nodup_middle.mp hnd
    rw [if_neg hhead]
    refine ⟨_, rfl, ?_⟩
    rw [herase, List.reverse_append, List.reverse_reverse, List.reverse_singleton, List.singleton_append,
      SetVector.ofList_elems hnd']

/- With an iterator among the inputs the first one goes to the front. -/
theorem reorderInputs_spec (inputs : ValueSet) (info : IteratorInfo) (r : Bool × ValueSet)
    (h : reorderInputs inputs info = some r) :
    (inputs.elems = [] ∧ r.2 = inputs) ∨
    ∃ pre f post, inputs.elems = pre ++ f :: post ∧ isIteratorInput info f = true ∧
      (∀ v ∈ pre, isIteratorInput info v = false) ∧ r.2.elems = f :: (pre ++ post) := by
  by_cases hnil : inputs.elems = []
  · rw [reorderInputs, if_pos hnil] at h
    cases h
    exact .inl ⟨hnil, rfl⟩
  · rw [reorderInputs, if_neg hnil] at h
    obtain ⟨f, hf, -⟩ := Option.bind_eq_some_iff.mp h
    rw [List.find?_eq_some_iff_append] at hf
    obtain ⟨hit, pre, post, hsplit, hpre⟩ := hf
    have hpre' : ∀ v ∈ pre, isIteratorInput info v = false := fun v hv => by simpa using hpre v hv
    obtain ⟨outs, hrun, houts⟩ := reorderInputs_first hsplit hit hpre'
    rw [reorderInputs, if_neg hnil] at hrun
    obtain rfl := Option.some.inj (h.symm.trans hrun)
    exact .inr ⟨pre, f, post, hsplit, hit, hpre', houts⟩

/- The first iterator goes to the front and nothing else moves; without an iterator
nothing moves at all. The call says whether it moved anything. -/
structure ReordersInputs (inputs : ValueSet) (info : IteratorInfo) (changed : Bool) (outs : ValueSet) : Prop where
  first : ∀ pre f post, inputs.elems = pre ++ f :: post → isIteratorInput info f = true →
    (∀ v ∈ pre, isIteratorInput info v = false) → outs.elems = f :: (pre ++ post)
  none : (∀ v ∈ inputs, isIteratorInput info v = false) → outs = inputs
  changed : changed = true ↔ outs ≠ inputs

/- This is so unless there are inputs but no iterator among them. -/
theorem reorderInputs_iff (inputs : ValueSet) (info : IteratorInfo) :
    (∃ changed outs, reorderInputs inputs info = some (changed, outs) ∧ ReordersInputs inputs info changed outs) ↔
      inputs.elems = [] ∨ ∃ v ∈ inputs, isIteratorInput info v = true := by
  constructor
  · rintro ⟨changed, outs, hrun, -⟩
    rcases reorderInputs_spec inputs info _ hrun with ⟨hnil, -⟩ | ⟨pre, f, post, hsplit, hf, -, -⟩
    · exact .inl hnil
    · refine .inr ⟨f, ?_, hf⟩
      rw [SetVector.mem_def, hsplit]
      exact List.mem_append_right pre (List.mem_cons_self ..)
  · rintro (hnil | ⟨v, hv, hit⟩)
    · refine ⟨false, inputs, by rw [reorderInputs, if_pos hnil], ⟨fun pre f post hsplit => ?_, fun _ => rfl, by simp⟩⟩
      rw [hnil] at hsplit
      exact absurd hsplit.symm (List.append_ne_nil_of_right_ne_nil pre (List.cons_ne_nil f post))
    · obtain ⟨f, hfind⟩ := Option.isSome_iff_exists.mp (List.find?_isSome.mpr ⟨v, hv, hit⟩)
      rw [List.find?_eq_some_iff_append] at hfind
      obtain ⟨hf, pre, post, hsplit, hpre⟩ := hfind
      have hpre' : ∀ v ∈ pre, isIteratorInput info v = false := fun v hv => by simpa using hpre v hv
      obtain ⟨outs, hrun, houts⟩ := reorderInputs_first hsplit hf hpre'
      refine ⟨_, outs, hrun, fun pre₁ f₁ post₁ h₁ hf₁ hpre₁ => ?_, fun hno => ?_, ?_⟩
      · obtain ⟨outs₁, hrun₁, houts₁⟩ := reorderInputs_first h₁ hf₁ hpre₁
        obtain ⟨-, rfl⟩ := Prod.mk.inj (Option.some.inj (hrun.symm.trans hrun₁))
        exact houts₁
      · exact absurd hit (by rw [hno v hv]; decide)
      · cases pre with
        | nil =>
          have heq : outs = inputs := SetVector.ext (houts.trans hsplit.symm)
          simp [heq]
        | cons p pre =>
          refine ⟨fun _ heq => ?_, fun _ => rfl⟩
          rw [heq, hsplit] at houts
          have hp := hpre' p (List.mem_cons_self ..)
          rw [(List.cons.inj houts).1, hf] at hp
          cases hp

/- The only input is an argument: the end position is dereferenced. -/
theorem reorderInputs_argument : ¬ ∃ changed outs,
    reorderInputs (SetVector.ofList [.arg 0 0 (.int 32)]) ⟨fun _ => false, true⟩ = some (changed, outs) ∧
      ReordersInputs (SetVector.ofList [.arg 0 0 (.int 32)]) ⟨fun _ => false, true⟩ changed outs := by
  rintro ⟨changed, outs, hrun, -⟩
  exact nomatch hrun

end Atrox
