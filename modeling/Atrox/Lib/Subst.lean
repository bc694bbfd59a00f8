import Mathlib.Data.List.Basic

/-!
# Replacements one after the other

A list of pairs, applied in its order: what an earlier pair puts in, a later one may replace.
-/

namespace Lib
variable {α : Type} [DecidableEq α]

def applySubst (σ : List (α × α)) (a : α) : α :=
  σ.foldl (fun x p => if x = p.1 then p.2 else x) a

@[simp] theorem applySubst_nil (a : α) : applySubst [] a = a := rfl

theorem applySubst_append (σ τ : List (α × α)) (a : α) :
    applySubst (σ ++ τ) a = applySubst τ (applySubst σ a) :=
  List.foldl_append

theorem applySubst_singleton (s d a : α) :
    applySubst [(s, d)] a = if a = s then d else a := rfl

theorem applySubst_of_notMem {σ : List (α × α)} {a : α} (h : ∀ p ∈ σ, p.1 ≠ a) :
    applySubst σ a = a := by
  induction σ with
  | nil => rfl
  | cons p σ ih =>
    have hp : a ≠ p.1 := fun he => h p (List.mem_cons_self ..) he.symm
    have hrest := ih fun q hq => h q (List.mem_cons_of_mem p hq)
    simp only [applySubst, List.foldl_cons, if_neg hp] at hrest ⊢
    exact hrest

theorem applySubst_cases (σ : List (α × α)) (a : α) :
    applySubst σ a = a ∨ ∃ p ∈ σ, applySubst σ a = p.2 := by
  induction σ generalizing a with
  | nil => exact .inl rfl
  | cons p σ ih =>
    have hcons : applySubst (p :: σ) a = applySubst σ (if a = p.1 then p.2 else a) := rfl
    rw [hcons]
    rcases ih (if a = p.1 then p.2 else a) with h | ⟨q, hq, h⟩
    · rw [h]
      split
      · exact .inr ⟨p, List.mem_cons_self .., rfl⟩
      · exact .inl rfl
    · exact .inr ⟨q, List.mem_cons_of_mem p hq, h⟩

/-- Nothing put in is replaced again: the first pair for a value decides. -/
theorem applySubst_eq_lookup {σ : List (α × α)} (h : ∀ p ∈ σ, ∀ q ∈ σ, q.1 ≠ p.2) (a : α) :
    applySubst σ a = (σ.lookup a).getD a := by
  induction σ with
  | nil => rfl
  | cons p σ ih =>
    obtain ⟨s, d⟩ := p
    have hrest := ih fun q hq r hr => h q (List.mem_cons_of_mem _ hq) r (List.mem_cons_of_mem _ hr)
    by_cases ha : a = s
    · have hd : applySubst σ d = d := applySubst_of_notMem fun q hq =>
        h (s, d) (List.mem_cons_self ..) q (List.mem_cons_of_mem _ hq)
      simp only [applySubst, List.foldl_cons, if_pos ha] at hd ⊢
      simp only [hd, ha, List.lookup_cons_self, Option.getD_some]
    · simp only [applySubst, List.foldl_cons, if_neg ha] at hrest ⊢
      rw [hrest, List.lookup_cons, beq_eq_false_iff_ne.mpr ha]

/-- A value that has a pair gives way to what one of its pairs puts in, when that is put in for good. -/
theorem applySubst_pair {σ : List (α × α)} {a : α} (ha : a ∈ σ.map Prod.fst)
    (h : ∀ p ∈ σ, ∀ q ∈ σ, q.1 ≠ p.2) : ∃ p ∈ σ, p.1 = a ∧ applySubst σ a = p.2 := by
  rw [applySubst_eq_lookup h]
  obtain ⟨p, hp, rfl⟩ := List.mem_map.mp ha
  cases hl : σ.lookup p.1 with
  | none =>
    rw [List.lookup_eq_none_iff] at hl
    simpa using hl p hp
  | some d =>
    obtain ⟨pre, post, hsplit, -⟩ := List.lookup_eq_some_iff.mp hl
    exact ⟨(p.1, d), by simp [hsplit], rfl, rfl⟩

/-- Of two lists of pairs the first decides, when it has pairs for the value and they agree. -/
theorem applySubst_first {σ τ : List (α × α)} {a b : α} (ha : a ∈ σ.map Prod.fst)
    (hb : ∀ p ∈ σ, p.1 = a → p.2 = b) (h : ∀ p ∈ σ ++ τ, ∀ q ∈ σ ++ τ, q.1 ≠ p.2) :
    applySubst (σ ++ τ) a = b := by
  obtain ⟨p, hp, hpa, he⟩ := applySubst_pair ha fun p hp q hq =>
    h p (List.mem_append_left τ hp) q (List.mem_append_left τ hq)
  have hput : applySubst σ a = b := he.trans (hb p hp hpa)
  rw [applySubst_append, hput]
  refine applySubst_of_notMem fun q hq => ?_
  rw [← hb p hp hpa]
  exact h p (List.mem_append_left τ hp) q (List.mem_append_right σ hq)

end Lib
