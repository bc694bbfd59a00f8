import Atrox.IR.CodeCopy
import Atrox.Transforms.SelfContained

/-!
# Values behind the root block

The root loads what is passed through memory. Once it has run, whatever takes the place
of an input holds the input's value.
-/

namespace Atrox
open IR Lib

section Passed
variable {V Mem : Type}

/- The number of the output an input is mapped to. -/
def CodeExtractor.outputIndex (ce : CodeExtractor) (v : Value) : Nat := (ce.inputToOutputMap.lookup v).getD 0

/- How the arguments hand the inputs over: by value, or as the output of a bidirectional input, which
is the value itself when it is a pointer, and otherwise the address of a cell that holds it. -/
structure Passed (S : Machine V Mem) (ce : CodeExtractor) (ρ : Value → V) (m : Mem) (args : List V) : Prop where
  byValue : ∀ (n : Nat) v, ce.getPureInputs.elems[n]? = some v → args[n]? = some (ρ v)
  pointer : ∀ v ∈ ce.inputs, ce.isBidirectional v = true → ∀ o, ce.outputs.elems[ce.outputIndex v]? = some o →
    o.ty.isPointerTy = true → args[ce.getPureInputs.length + ce.outputIndex v]? = some (ρ v)
  cell : ∀ v ∈ ce.inputs, ce.isBidirectional v = true → ∀ o, ce.outputs.elems[ce.outputIndex v]? = some o →
    o.ty.isPointerTy = false → ∃ a, args[ce.getPureInputs.length + ce.outputIndex v]? = some a ∧
      S.load o.ty a m = some (ρ v)

/- An input and the output it is mapped to have one type. -/
def OutputsTyped (ce : CodeExtractor) : Prop :=
  ∀ v ∈ ce.inputs, ce.isBidirectional v = true → ∀ o, ce.outputs.elems[ce.outputIndex v]? = some o → o.ty = v.ty

end Passed

section Params
variable {c : CloneCtx}

/- The types of the parameters when nothing is aggregated. -/
theorem params_used (hp : c.params = paramTypes false c.usedInputs c.ce.outputs.elems) {n : Nat} {v : Value}
    (h : c.usedInputs[n]? = some v) : c.params[n]? = some v.ty := by
  have hlt : n < c.usedInputs.length := (List.getElem?_eq_some_iff.mp h).1
  rw [hp]
  simp only [paramTypes, Bool.false_eq_true, if_false]
  rw [List.getElem?_append_left (by simpa using hlt), List.getElem?_map, h, Option.map_some]

theorem params_output (hp : c.params = paramTypes false c.usedInputs c.ce.outputs.elems) {n : Nat} {o : Value}
    (h : c.ce.outputs.elems[n]? = some o) : c.params[c.usedInputs.length + n]? = some (outputParamTy o.ty) := by
  rw [hp]
  simp only [paramTypes, Bool.false_eq_true, if_false]
  rw [List.getElem?_append_right (by simp), List.length_map, Nat.add_sub_cancel_left, List.getElem?_map, h,
    Option.map_some]

end Params

section Root
variable {V Mem : Type} {S : Machine V Mem} {c : CloneCtx} {ρ : Value → V} {m : Mem} {args : List V} {D : Code}

/- In the root block, with some of its instructions left to run. -/
def inRoot (c : CloneCtx) (start : Value → Option V) (m : Mem) (rest : List Inst) (vals : Value → Option V) :
    Config V Mem :=
  { prev := none, block := some c.root, rest, entry := start, vals, mem := m }

/- The plan's instructions run, and its replacements hold the values of what they replace. -/
structure Plan.Loads (S : Machine V Mem) (c : CloneCtx) (D : Code) (ρ : Value → V) (m : Mem)
    (start : Value → Option V) (n : Nat) (s : Plan) (vals : Value → Option V) : Prop where
  run : ∀ rest, S.Runs D (inRoot c start m (s.insts ++ rest) start) s.insts (inRoot c start m rest vals)
  subst : ∀ p ∈ s.subst, vals p.2 = some (ρ p.1) ∧ p.2.ty = p.1.ty ∧ ∀ j t, p.2 = .inst j t → s.nextId > j
  frame : ∀ v, (∀ j t, v = .inst j t → n > j) → vals v = start v
  le : n ≤ s.nextId

theorem Plan.Loads.replace {start vals : Value → Option V} {n : Nat} {s : Plan}
    (h : s.Loads S c D ρ m start n vals) {src dst : Value} (hval : vals dst = some (ρ src)) (hty : dst.ty = src.ty)
    (hlt : ∀ j t, dst = .inst j t → s.nextId > j) : (s.replace src dst).Loads S c D ρ m start n vals := by
  refine ⟨h.run, fun p hp => ?_, h.frame, h.le⟩
  rcases List.mem_append.mp hp with hp | hp
  · exact h.subst p hp
  · rw [List.mem_singleton.mp hp]
    exact ⟨hval, hty, hlt⟩

/- A load of a parameter runs and reads the cell. -/
theorem Plan.Loads.load {start vals : Value → Option V} {n : Nat} {s : Plan}
    (h : s.Loads S c D ρ m start n vals) {f : FuncId} {k : Nat} {t ty : Ty} {a x : V}
    (harg : start (.arg f k t) = some a) (hload : S.load ty a m = some x) :
    (s.insertInst .load ty [.arg f k t]).2.Loads S c D ρ m start n
      (Function.update vals (.inst s.nextId ty) (some x)) := by
  have hle := h.le
  have hother : ∀ v : Value, (∀ j u, v = .inst j u → s.nextId > j) →
      Function.update vals (.inst s.nextId ty) (some x) v = vals v := by
    intro v hv
    refine Function.update_of_ne (fun he => ?_) _ _
    have hlt := hv s.nextId ty he
    exact Nat.lt_irrefl _ hlt
  refine ⟨fun rest => ?_, fun p hp => ?_, fun v hv => ?_, Nat.le_succ_of_le hle⟩
  · have hrun := h.run (⟨s.nextId, .load, ty, [.arg f k t], [], []⟩ :: rest)
    have hvals : vals (.arg f k t) = some a := by
      rw [h.frame _ fun j u he => by cases he]
      exact harg
    have hstep : S.step D (inRoot c start m (⟨s.nextId, .load, ty, [.arg f k t], [], []⟩ :: rest) vals) =
        some (⟨s.nextId, .load, ty, [.arg f k t], [], []⟩,
          inRoot c start m rest (Function.update vals (.inst s.nextId ty) (some x))) := by
      refine Machine.step_eq.mpr ⟨rest, ⟨some x, m, 0⟩, rfl, ?_, rfl⟩
      simp only [Machine.outcome, inRoot, List.head?_cons, Option.bind_some, hvals, hload, Option.map_some]
    have happ := hrun.append (.single hstep)
    have hlist : s.insts ++ (⟨s.nextId, .load, ty, [.arg f k t], [], []⟩ : Inst) :: rest =
        (s.insertInst .load ty [.arg f k t]).2.insts ++ rest := by
      simp only [Plan.insertInst, List.append_assoc, List.cons_append, List.nil_append]
    rw [hlist] at happ
    exact happ
  · obtain ⟨h1, h2, h3⟩ := h.subst p hp
    refine ⟨(hother p.2 h3).trans h1, h2, fun j u he => ?_⟩
    exact Nat.lt_succ_of_lt (h3 j u he)
  · rw [hother v fun j u he => Nat.lt_of_lt_of_le (hv j u he) hle]
    exact h.frame v hv

theorem planRoot_loads {start : Value → Option V} {n : Nat} {s : Plan} (hagg : c.ce.aggregateArgs = false)
    (hslots : c.ce.stackAllocas = ∅) (hparams : c.params = paramTypes false c.usedInputs c.ce.outputs.elems)
    (hP : Passed S c.ce ρ m args) (htyped : OutputsTyped c.ce)
    (hstart : ∀ i t, start (.arg c.newFunction i t) = args[i]?) (h : c.planRoot n = some s) :
    ∃ vals, s.Loads S c D ρ m start n vals := by
  obtain ⟨s₁, h1, h⟩ := Option.bind_eq_some_iff.mp h
  obtain ⟨s₂, h2, h3⟩ := Option.bind_eq_some_iff.mp h
  have hnil : c.ce.stackAllocas.elems.zipIdx = [] := by rw [hslots]; rfl
  rw [hnil] at h3
  cases h3
  have hframe : ∀ {s : Plan} {vals : Value → Option V} {i : Nat} {t : Ty}, s.Loads S c D ρ m start n vals →
      vals (.arg c.newFunction i t) = args[i]? := by
    intro s vals i t hs
    rw [hs.frame _ fun j u he => by cases he]
    exact hstart i t
  have h0 : (⟨[], [], n⟩ : Plan).Loads S c D ρ m start n start :=
    ⟨fun rest => .nil _, by simp, fun _ _ => rfl, Nat.le_refl _⟩
  have f1 : ∃ vals, s₁.Loads S c D ρ m start n vals := by
    refine foldlM_preserves (P := fun s : Plan => ∃ vals, s.Loads S c D ρ m start n vals) _ ?_
      ⟨start, h0⟩ h1
    rintro ⟨v, k⟩ s s' hv ⟨vals, hs⟩ hstep
    have hk : c.usedInputs[k]? = some v := List.mk_mem_zipIdx_iff_getElem?.mp hv
    rcases planInput_inv hstep with ⟨hagg', -⟩ | ⟨-, r, hr, rfl⟩
    · rw [hagg] at hagg'
      cases hagg'
    · obtain ⟨t, ht, rfl⟩ := argAt_spec hr
      rw [params_used hparams hk] at ht
      obtain rfl := Option.some.inj ht
      exact ⟨vals, hs.replace ((hframe hs).trans (hP.byValue k v hk)) rfl (fun j t he => by cases he)⟩
  refine foldlM_preserves (P := fun s : Plan => ∃ vals, s.Loads S c D ρ m start n vals) _ ?_ f1 h2
  rintro v s s' hv ⟨vals, hs⟩ hstep
  obtain ⟨hvin, hvb⟩ := List.mem_filter.mp hv
  obtain ⟨⟨o, arg⟩, hr, hcase⟩ := planBidirectional_inv hstep
  obtain ⟨hout, t, rfl⟩ := outputOf_spec hr
  have hty := htyped v hvin hvb o hout
  have harg : t = outputParamTy o.ty := by
    obtain ⟨o', ho', hr'⟩ := Option.bind_eq_some_iff.mp hr
    obtain ⟨a, ha, hr'⟩ := Option.bind_eq_some_iff.mp hr'
    obtain ⟨t', ht', rfl⟩ := argAt_spec ha
    rw [params_output hparams hout] at ht'
    cases hr'
    exact (Option.some.inj ht').symm
  dsimp only at hcase
  rcases hcase with ⟨hp, rfl⟩ | ⟨hp, ld, s', hld, rfl⟩
  · rw [outputParamTy, if_pos hp] at harg
    have hval := hP.pointer v hvin hvb o hout hp
    exact ⟨vals, hs.replace ((hframe hs).trans hval) (harg.trans hty) (fun j t he => by cases he)⟩
  · cases hld
    rw [outputParamTy, if_neg (by simp [hp])] at harg
    subst harg
    obtain ⟨a, ha, hload⟩ := hP.cell v hvin hvb o hout hp
    have hs' := hs.load ((hstart _ o.ty.getUnqual).trans ha) hload
    refine ⟨_, hs'.replace (Function.update_self ..) hty fun j t he => ?_⟩
    obtain ⟨rfl, -⟩ := Value.inst.inj he
    exact Nat.lt_succ_self _

end Root

end Atrox
