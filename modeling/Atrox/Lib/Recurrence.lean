import Mathlib.Algebra.Group.Nat.Defs
import Mathlib.Logic.Function.DependsOn
import Mathlib.Logic.Function.Iterate

/-!
# Recurrences over nested loops

A recurrence over a loop has a start and a step, which are constants or recurrences over loops
further out; in iteration `k` of its loop its value is the start plus `k` steps. Putting a number
for the iteration takes one loop away, so a constant is left once as many numbers are put as there are
loops that matter.
-/

namespace Lib

/-- How expressions are taken apart: constants, recurrences with start, step and loop, and the
width of their values. -/
structure Recurrences (S L : Type) where
  constant : S → Option Nat
  addRec : S → Option (S × S × L)
  width : S → Nat

namespace Recurrences
variable {S L : Type} (R : Recurrences S L)

/-- A constant, or a recurrence over a loop of the list whose start and step are over the loops
behind that one. -/
inductive Over : List L → S → Prop
  | constant {ls : List L} {s : S} {c : Nat} (hc : R.constant s = some c) (hs : R.addRec s = none) : Over ls s
  | addRec {s a b : S} {l : L} (pre outer : List L) (hs : R.addRec s = some (a, b, l)) (ha : Over outer a)
      (hb : Over outer b) : Over (pre ++ l :: outer) s

/-- The value when loop `l` is in iteration `ρ l`. -/
inductive Value (ρ : L → Nat) : S → Nat → Prop
  | constant {s : S} {c : Nat} (hc : R.constant s = some c) (hs : R.addRec s = none) : Value ρ s c
  | addRec {s a b : S} {l : L} {x y : Nat} (hs : R.addRec s = some (a, b, l)) (ha : Value ρ a x) (hb : Value ρ b y) :
      Value ρ s ((x + y * ρ l) % 2 ^ R.width s)

/-- On recurrences over the loops, listed from the innermost out, `f s n` is `s` at iteration `n` of its
loop, an expression over the loops further out. -/
def Substitutes (f : S → Nat → S) (loops : List L) : Prop :=
  ∀ s a b l n pre outer, pre ++ l :: outer <:+ loops → R.addRec s = some (a, b, l) → R.Over outer a → R.Over outer b →
    R.Over outer (f s n) ∧
      ∀ ρ x y, R.Value ρ a x → R.Value ρ b y → R.Value ρ (f s n) ((x + y * n) % 2 ^ R.width s)

/-- A recurrence gives way to its value at iteration `n`, anything else stays. -/
def peel (f : S → Nat → S) (n : Nat) (s : S) : S := if (R.addRec s).isSome then f s n else s

variable {R} {f : S → Nat → S} {loops ls : List L} {s : S} {n : Nat}

theorem Over.append (h : R.Over ls s) (more : List L) : R.Over (more ++ ls) s := by
  cases h with
  | constant hc hs => exact .constant hc hs
  | addRec pre outer hs ha hb =>
    rw [← List.append_assoc]
    exact .addRec (more ++ pre) outer hs ha hb

theorem Over.suffix (h : R.Over ls s) {ls' : List L} (hls : ls <:+ ls') : R.Over ls' s := by
  obtain ⟨more, rfl⟩ := hls
  exact h.append more

theorem Over.constant_of_nil (h : R.Over [] s) : ∃ c, R.constant s = some c ∧ R.addRec s = none := by
  generalize hls : ([] : List L) = ls at h
  cases h with
  | constant hc hs => exact ⟨_, hc, hs⟩
  | addRec pre outer => exact absurd hls.symm (by simp)

theorem Over.value (h : R.Over ls s) (ρ : L → Nat) : ∃ v, R.Value ρ s v := by
  induction h with
  | constant hc hs => exact ⟨_, .constant hc hs⟩
  | addRec pre outer hs _ _ iha ihb =>
    obtain ⟨x, hx⟩ := iha
    obtain ⟨y, hy⟩ := ihb
    exact ⟨_, .addRec hs hx hy⟩

theorem Value.unique {ρ : L → Nat} {v w : Nat} (h : R.Value ρ s v) (h' : R.Value ρ s w) : v = w := by
  induction h generalizing w with
  | constant hc hs =>
    cases h' with
    | constant hc' _ => exact Option.some.inj (hc.symm.trans hc')
    | addRec hs' => exact nomatch hs.symm.trans hs'
  | addRec hs _ _ iha ihb =>
    cases h' with
    | constant _ hs' => exact nomatch hs'.symm.trans hs
    | addRec hs' ha' hb' =>
      cases hs.symm.trans hs'
      rw [iha ha', ihb hb']

/-- The innermost loop is gone. -/
theorem Over.peel (hf : R.Substitutes f loops) (hls : ls <:+ loops) (h : R.Over ls s) (n : Nat) :
    R.Over ls.tail (R.peel f n s) := by
  unfold Recurrences.peel
  cases h with
  | constant hc hs =>
    rw [hs]
    exact .constant hc hs
  | @addRec s a b l pre outer hs ha hb =>
    rw [hs]
    have hnext := (hf _ _ _ _ n _ _ hls hs ha hb).1
    cases pre with
    | nil => exact hnext
    | cons p pre =>
      rw [List.cons_append, List.tail_cons, ← List.singleton_append, ← List.append_assoc]
      exact hnext.append (pre ++ [l])

/-- With every loop in iteration `n` the value stays. -/
theorem Value.peel (hf : R.Substitutes f loops) (hls : ls <:+ loops) (h : R.Over ls s) {v : Nat}
    (hv : R.Value (fun _ => n) s v) : R.Value (fun _ => n) (R.peel f n s) v := by
  unfold Recurrences.peel
  cases h with
  | constant hc hs =>
    rw [hs]
    exact hv
  | addRec pre outer hs ha hb =>
    rw [hs]
    cases hv with
    | constant _ hno => exact nomatch hno.symm.trans hs
    | addRec hs' hx hy =>
      cases hs.symm.trans hs'
      exact (hf _ _ _ _ n _ _ hls hs ha hb).2 _ _ _ hx hy

theorem iterate_peel (hf : R.Substitutes f loops) (h : R.Over loops s) {v : Nat}
    (hv : R.Value (fun _ => n) s v) (k : Nat) :
    R.Over (loops.drop k) ((R.peel f n)^[k] s) ∧ R.Value (fun _ => n) ((R.peel f n)^[k] s) v := by
  induction k with
  | zero => exact ⟨h, hv⟩
  | succ k ih =>
    rw [Function.iterate_succ_apply', ← List.tail_drop]
    exact ⟨ih.1.peel hf (List.drop_suffix k loops) n, ih.2.peel hf (List.drop_suffix k loops) ih.1⟩

/-- After one step for each loop there is a constant: the value with `n` for every iteration number. -/
theorem iterate_constant (hf : R.Substitutes f loops) (h : R.Over loops s) {k : Nat} (hk : loops.length ≤ k) :
    ∃ c, R.constant ((R.peel f n)^[k] s) = some c ∧ R.Value (fun _ => n) s c := by
  obtain ⟨v, hv⟩ := h.value fun _ => n
  obtain ⟨hover, hval⟩ := iterate_peel hf h hv k
  rw [List.drop_eq_nil_of_le hk] at hover
  obtain ⟨c, hc, hs⟩ := hover.constant_of_nil
  obtain rfl := hval.unique (.constant hc hs)
  exact ⟨v, hc, hv⟩

section Mattering
variable (R)

/-- Steps are of the width of their recurrence, and no constant step is zero. -/
def Normalized : Prop :=
  ∀ s a b l, R.addRec s = some (a, b, l) →
    R.width b = R.width s ∧ ∀ c, R.constant b = some c → c % 2 ^ R.width s ≠ 0

/-- The value as a function of the iteration numbers. -/
noncomputable def valueAt (s : S) (ρ : L → Nat) : Nat := Classical.epsilon (R.Value ρ s)

variable {R} {outer : List L} {a b : S} {l : L} {ρ : L → Nat}

theorem Value.valueAt {v : Nat} (h : R.Value ρ s v) : R.valueAt s ρ = v := (Classical.epsilon_spec ⟨v, h⟩).unique h

theorem Over.value_valueAt (h : R.Over ls s) (ρ : L → Nat) : R.Value ρ s (R.valueAt s ρ) :=
  Classical.epsilon_spec (h.value ρ)

theorem valueAt_addRec (hs : R.addRec s = some (a, b, l)) (ha : R.Over outer a) (hb : R.Over outer b) (ρ : L → Nat) :
    R.valueAt s ρ = (R.valueAt a ρ + R.valueAt b ρ * ρ l) % 2 ^ R.width s :=
  Value.valueAt (.addRec hs (ha.value_valueAt ρ) (hb.value_valueAt ρ))

/-- Only the loops of the list matter. -/
theorem Over.dependsOn (h : R.Over ls s) : DependsOn (R.valueAt s) {l | l ∈ ls} := by
  induction h with
  | constant hc hs =>
    intro ρ ρ' _
    rw [Value.valueAt (.constant hc hs), Value.valueAt (.constant hc hs)]
  | @addRec s a b l pre outer hs ha hb iha ihb =>
    intro ρ ρ' hρ
    have houter : ∀ i ∈ {i | i ∈ outer}, ρ i = ρ' i := fun i hi =>
      hρ i (List.mem_append_right pre (List.mem_cons_of_mem l hi))
    rw [valueAt_addRec hs ha hb, valueAt_addRec hs ha hb, iha houter, ihb houter,
      hρ l (List.mem_append_right pre (List.mem_cons_self ..))]

theorem Over.dependsOn_compl (h : R.Over ls s) (hl : l ∉ ls) : DependsOn (R.valueAt s) {l}ᶜ :=
  h.dependsOn.mono fun _ hi hil => hl (hil ▸ hi)

/-- The first loop of the list is that of the recurrence, or one that does not occur. -/
theorem Over.cons_cases {m : L} (h : R.Over (m :: ls) s) :
    R.Over ls s ∨ ∃ a b, R.addRec s = some (a, b, m) ∧ R.Over ls a ∧ R.Over ls b := by
  generalize hms : m :: ls = ms at h
  cases h with
  | constant hc hs => exact .inl (.constant hc hs)
  | addRec pre outer hs ha hb =>
    cases pre with
    | nil =>
      cases hms
      exact .inr ⟨_, _, hs, ha, hb⟩
    | cons p pre =>
      cases hms
      exact .inl (.addRec pre outer hs ha hb)

variable [DecidableEq L]

open Classical in
/-- The number of loops that make a difference, when they are taken one after the other and each is put to
iteration `n` before the next. -/
noncomputable def mattering (n : Nat) : List L → ((L → Nat) → Nat) → Nat
  | [], _ => 0
  | l :: ls, V =>
    if DependsOn V {l}ᶜ then mattering n ls V else mattering n ls (fun ρ => V (Function.update ρ l n)) + 1

theorem Over.valueAt_update (h : R.Over ls s) (hl : l ∉ ls) (k : Nat) :
    R.valueAt s (Function.update ρ l k) = R.valueAt s ρ :=
  h.dependsOn_compl hl fun _ hi => Function.update_of_ne hi k ρ

/-- One step more makes a difference where the step is not zero. -/
theorem valueAt_step (hs : R.addRec s = some (a, b, l)) (ha : R.Over outer a) (hb : R.Over outer b) (hl : l ∉ outer)
    (hstep : R.valueAt b ρ % 2 ^ R.width s ≠ 0) :
    R.valueAt s (Function.update ρ l 0) ≠ R.valueAt s (Function.update ρ l 1) := by
  rw [valueAt_addRec hs ha hb, valueAt_addRec hs ha hb, ha.valueAt_update hl, hb.valueAt_update hl,
    ha.valueAt_update hl, hb.valueAt_update hl, Function.update_self, Function.update_self]
  intro heq
  have hzero := Nat.sub_mod_eq_zero_of_mod_eq heq.symm
  rw [Nat.mul_zero, Nat.mul_one, Nat.add_zero, Nat.add_sub_cancel_left] at hzero
  exact hstep hzero

/-- What is not the constant zero is not zero everywhere. -/
theorem Over.exists_valueAt_ne_zero (hnorm : R.Normalized) (h : R.Over ls s) (hnd : ls.Nodup)
    (hzero : ∀ c, R.constant s = some c → c % 2 ^ R.width s ≠ 0) : ∃ ρ, R.valueAt s ρ % 2 ^ R.width s ≠ 0 := by
  induction h with
  | constant hc hs =>
    refine ⟨fun _ => 0, ?_⟩
    rw [Value.valueAt (.constant hc hs)]
    exact hzero _ hc
  | @addRec s a b l pre outer hs ha hb _ ihb =>
    obtain ⟨hw, hb0⟩ := hnorm _ _ _ _ hs
    obtain ⟨hl, hout⟩ := List.nodup_cons.mp (List.nodup_append.mp hnd).2.1
    obtain ⟨ρ, hρ⟩ := ihb hout fun c hc => hw ▸ hb0 c hc
    have hne := valueAt_step hs ha hb hl (hw ▸ hρ)
    have hlt : ∀ ρ, R.valueAt s ρ % 2 ^ R.width s = R.valueAt s ρ := fun ρ => by
      rw [valueAt_addRec hs ha hb, Nat.mod_mod]
    by_contra hall
    have hall' : ∀ ρ, R.valueAt s ρ = 0 := fun ρ => by
      rw [← hlt]
      exact Classical.byContradiction fun hρ => hall ⟨ρ, hρ⟩
    exact hne ((hall' _).trans (hall' _).symm)

/-- The loop of a recurrence matters. -/
theorem not_dependsOn_compl (hnorm : R.Normalized) (hs : R.addRec s = some (a, b, l)) (ha : R.Over outer a)
    (hb : R.Over outer b) (hnd : (l :: outer).Nodup) : ¬ DependsOn (R.valueAt s) {l}ᶜ := by
  obtain ⟨hw, hb0⟩ := hnorm _ _ _ _ hs
  obtain ⟨hl, hout⟩ := List.nodup_cons.mp hnd
  obtain ⟨ρ, hρ⟩ := hb.exists_valueAt_ne_zero hnorm hout fun c hc => hw ▸ hb0 c hc
  intro hdep
  refine valueAt_step hs ha hb hl (hw ▸ hρ) (hdep fun i hi => ?_)
  rw [Function.update_of_ne hi, Function.update_of_ne hi]

/-- A step puts the iteration number for that of the recurrence's loop. -/
theorem valueAt_substituted (hf : R.Substitutes f loops) (hls : l :: ls <:+ loops) (hl : l ∉ ls)
    (hs : R.addRec s = some (a, b, l)) (ha : R.Over ls a) (hb : R.Over ls b) :
    R.valueAt (f s n) = fun ρ => R.valueAt s (Function.update ρ l n) := by
  funext ρ
  rw [valueAt_addRec hs ha hb, ha.valueAt_update hl, hb.valueAt_update hl, Function.update_self]
  exact Value.valueAt ((hf _ _ _ _ n [] ls hls hs ha hb).2 ρ _ _ (ha.value_valueAt ρ) (hb.value_valueAt ρ))

/-- A number of steps leaves a constant exactly when no more loops matter. -/
theorem iterate_constant_iff (hexcl : ∀ s c, R.constant s = some c → R.addRec s = none) (hnorm : R.Normalized)
    (hf : R.Substitutes f loops) (hls : ls <:+ loops) (hnd : ls.Nodup) (h : R.Over ls s) (k : Nat) :
    (∃ c, R.constant ((R.peel f n)^[k] s) = some c) ↔ mattering n ls (R.valueAt s) ≤ k := by
  induction ls generalizing s k with
  | nil =>
    obtain ⟨c, hc, hs⟩ := h.constant_of_nil
    have hstay : R.peel f n s = s := by
      rw [peel, hs]
      rfl
    rw [Function.iterate_fixed hstay]
    exact ⟨fun _ => Nat.zero_le k, fun _ => ⟨c, hc⟩⟩
  | cons m ls ih =>
    have hrest := (List.suffix_cons m ls).trans hls
    obtain ⟨hm, hnd'⟩ := List.nodup_cons.mp hnd
    rcases h.cons_cases with hover | ⟨a, b, hs, ha, hb⟩
    · rw [mattering, if_pos (hover.dependsOn_compl hm)]
      exact ih hrest hnd' hover k
    · rw [mattering, if_neg (not_dependsOn_compl hnorm hs ha hb hnd), ← valueAt_substituted hf hls hm hs ha hb]
      cases k with
      | zero =>
        refine ⟨fun ⟨c, hc⟩ => ?_, fun hle => absurd hle (Nat.not_succ_le_zero _)⟩
        exact nomatch (hexcl s c hc).symm.trans hs
      | succ k =>
        have hstep : R.peel f n s = f s n := by
          rw [peel, hs]
          rfl
        rw [Function.iterate_succ_apply, hstep, Nat.succ_le_succ_iff]
        exact ih hrest hnd' (hf _ _ _ _ n [] ls hls hs ha hb).1 k

end Mattering

end Recurrences

end Lib
