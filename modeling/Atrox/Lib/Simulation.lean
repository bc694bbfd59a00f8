import Mathlib.Data.List.Forall2

/-!
# Runs and simulation

Two systems whose steps have labels. Some labels of the first are silent: the second has
nothing for them. Steps that match give runs that match, in both directions.
-/

namespace Lib
variable {σ τ α β : Type}

/-- Steps one after the other, with their labels. -/
inductive Run (step : σ → α → σ → Prop) : σ → List α → σ → Prop where
  | nil (s : σ) : Run step s [] s
  | cons {s t u : σ} {a : α} {as : List α} : step s a t → Run step t as u → Run step s (a :: as) u

namespace Run
variable {step : σ → α → σ → Prop}

theorem single {s t : σ} {a : α} (h : step s a t) : Run step s [a] t := .cons h (.nil t)

theorem append {s t u : σ} {as bs : List α} (h : Run step s as t) (h' : Run step t bs u) :
    Run step s (as ++ bs) u := by
  induction h with
  | nil s => exact h'
  | cons hs _ ih => exact .cons hs (ih h')

/-- Where steps have one outcome, one of two runs goes on from the end of the other. -/
theorem compare (hstep : ∀ s a t b u, step s a t → step s b u → a = b ∧ t = u) {s t u : σ} {as bs : List α}
    (h : Run step s as t) (h' : Run step s bs u) :
    (∃ cs, bs = as ++ cs ∧ Run step t cs u) ∨ bs <+: as := by
  induction h generalizing bs with
  | nil s => exact .inl ⟨bs, rfl, h'⟩
  | @cons s s₁ t a as hs _ ih =>
    cases h' with
    | nil => exact .inr (List.nil_prefix)
    | @cons _ s₂ _ b bs hs' hrest =>
      obtain ⟨rfl, rfl⟩ := hstep _ _ _ _ _ hs hs'
      rcases ih hrest with ⟨cs, rfl, hcs⟩ | hpre
      · exact .inl ⟨cs, rfl, hcs⟩
      · exact .inr ((List.prefix_cons_inj a).mpr hpre)

/-- What holds of the label of every step from a state with the invariant holds along the run. -/
theorem labels {I : σ → Prop} {P : α → Prop} (hstep : ∀ s a t, I s → step s a t → P a ∧ I t) {s t : σ}
    {as : List α} (h : Run step s as t) (hs : I s) : I t ∧ ∀ a ∈ as, P a := by
  induction h with
  | nil s => exact ⟨hs, by simp⟩
  | cons hst _ ih =>
    obtain ⟨ha, ht⟩ := hstep _ _ _ hs hst
    obtain ⟨hu, hrest⟩ := ih ht
    exact ⟨hu, by simpa using ⟨ha, hrest⟩⟩

end Run

/-- `R` relates the states of two systems that do the same up to silent steps. -/
structure Bisim (step : σ → α → σ → Prop) (step' : τ → β → τ → Prop) (silent : α → Bool)
    (L : α → β → Prop) (R : σ → τ → Prop) : Prop where
  skip : ∀ s t a s', R s t → step s a s' → silent a = true → R s' t
  forth : ∀ s t a s', R s t → step s a s' → silent a = false → ∃ b t', step' t b t' ∧ L a b ∧ R s' t'
  back : ∀ s t b t', R s t → step' t b t' → ∃ as a s', (∀ x ∈ as, silent x = true) ∧ silent a = false ∧
    Run step s (as ++ [a]) s' ∧ L a b ∧ R s' t'

/-- The labels that are not silent match one by one. -/
def Matching (silent : α → Bool) (L : α → β → Prop) (as : List α) (bs : List β) : Prop :=
  List.Forall₂ L (as.filter fun a => !silent a) bs

namespace Bisim
variable {step : σ → α → σ → Prop} {step' : τ → β → τ → Prop} {silent : α → Bool} {L : α → β → Prop}
  {R : σ → τ → Prop} (h : Bisim step step' silent L R)

include h

theorem forth_run {s s' : σ} {t : τ} {as : List α} (hR : R s t) (hrun : Run step s as s') :
    ∃ bs t', Run step' t bs t' ∧ Matching silent L as bs ∧ R s' t' := by
  induction hrun generalizing t with
  | nil s => exact ⟨[], t, .nil t, .nil, hR⟩
  | @cons s s₁ s' a as hs _ ih =>
    cases hsil : silent a with
    | true =>
      obtain ⟨bs, t', hrun', hm, hR'⟩ := ih (h.skip s t a s₁ hR hs hsil)
      refine ⟨bs, t', hrun', ?_, hR'⟩
      rw [Matching, List.filter_cons_of_neg (by simp [hsil])]
      exact hm
    | false =>
      obtain ⟨b, t₁, hs', hL, hR₁⟩ := h.forth s t a s₁ hR hs hsil
      obtain ⟨bs, t', hrun', hm, hR'⟩ := ih hR₁
      refine ⟨b :: bs, t', .cons hs' hrun', ?_, hR'⟩
      rw [Matching, List.filter_cons_of_pos (by simp [hsil])]
      exact .cons hL hm

theorem back_run {s : σ} {t t' : τ} {bs : List β} (hR : R s t) (hrun : Run step' t bs t') :
    ∃ as s', Run step s as s' ∧ Matching silent L as bs ∧ R s' t' := by
  induction hrun generalizing s with
  | nil t => exact ⟨[], s, .nil s, .nil, hR⟩
  | @cons t t₁ t' b bs ht _ ih =>
    obtain ⟨pre, a, s₁, hpre, hsil, hrun₁, hL, hR₁⟩ := h.back s t b t₁ hR ht
    obtain ⟨as, s', hrun', hm, hR'⟩ := ih hR₁
    refine ⟨(pre ++ [a]) ++ as, s', hrun₁.append hrun', ?_, hR'⟩
    have hnil : pre.filter (fun a => !silent a) = [] := List.filter_eq_nil_iff.mpr fun x hx => by
      simp [hpre x hx]
    rw [Matching, List.filter_append, List.filter_append, hnil, List.filter_singleton, hsil]
    exact .cons hL hm

end Bisim

end Lib
